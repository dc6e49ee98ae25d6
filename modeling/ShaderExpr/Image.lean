import ShaderExpr.Color

/-!
# Images

An image is rows of pixels, the top row first. A pixel keeps the high byte of each channel of a color.
-/

namespace ShaderExpr

/-- A pixel: red, green and blue are multiplied by alpha. -/
structure Pixel where
  red : UInt8
  green : UInt8
  blue : UInt8
  alpha : UInt8
deriving DecidableEq, Repr, Inhabited

namespace Pixel

/-- The pixel of a color. -/
def ofColor (c : Color) : Pixel :=
  let high := fun (v : UInt16) => UInt8.ofNat (v.toNat / 256)
  ⟨high c.red, high c.green, high c.blue, high c.alpha⟩

/-- A byte as two hexadecimal digits. -/
def hexByte (v : UInt8) : String :=
  String.ofList [Nat.digitChar (v.toNat / 16), Nat.digitChar (v.toNat % 16)]

/-- The channels of a pixel in hexadecimal. -/
def hex (p : Pixel) : String := hexByte p.red ++ hexByte p.green ++ hexByte p.blue ++ hexByte p.alpha

/-- How dark a backdrop is: its alpha, of sixteen bits. -/
def backdropAlpha : Nat := 41120

/-- A channel behind a backdrop that adds `more` to it. -/
def shadeChannel (more : Nat) (v : UInt8) : UInt8 :=
  UInt8.ofNat ((v.toNat * ((65535 - backdropAlpha) * 257) / 65535 + more) / 256)

/-- A pixel behind a black backdrop. -/
def shade (p : Pixel) : Pixel :=
  ⟨shadeChannel 0 p.red, shadeChannel 0 p.green, shadeChannel 0 p.blue,
    shadeChannel backdropAlpha p.alpha⟩

end Pixel

/-- Rows of pixels, the top row first. -/
structure Image where
  rows : List (List Pixel)
deriving DecidableEq, Repr, Inhabited

namespace Image

def height (i : Image) : Nat := i.rows.length

def width (i : Image) : Nat := (i.rows.headD []).length

/-- The pixel at a column and a row. -/
def get? (i : Image) (x y : Nat) : Option Pixel := i.rows[y]?.bind (·[x]?)

/-- The image of a size with pixels given by column and row, asked for row by row. -/
def buildM {m : Type → Type} [Monad m] (width height : Nat) (f : Nat → Nat → m Pixel) : m Image := do
  let rows ← (List.range height).mapM fun y => (List.range width).mapM fun x => f x y
  return ⟨rows⟩

/-- The text of the rows in hexadecimal, with blanks between pixels. -/
def hexRows (i : Image) : List String := i.rows.map fun row => " ".intercalate (row.map Pixel.hex)

/-- The width of a blank in a caption. -/
def captionBlank : Nat := 3

/-- The space around a caption. -/
def captionMargin : Nat := 3

/-- The height of a line of a caption. -/
def captionLine : Nat := 14

/-- Puts a backdrop for a caption into the lower left corner. A caption is made of blanks, which leave
no other trace. -/
def addCaption (i : Image) (caption : String) : Image :=
  if caption.isEmpty then i
  else
    let columns := captionBlank * caption.length + 2 * captionMargin
    let above := i.height - (captionLine + 2 * captionMargin)
    ⟨i.rows.mapIdx fun y row =>
      if y < above then row else (row.take columns).map Pixel.shade ++ row.drop columns⟩

end Image

end ShaderExpr
