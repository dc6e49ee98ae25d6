import ShaderExpr.Arith
import ShaderExpr.Value

/-!
# Colors

A color has four channels of sixteen bits, the first three multiplied by the fourth. A value becomes a
color by its components; for single numbers a colormap decides, if there is one.
-/

namespace ShaderExpr

/-- A color: red, green and blue are multiplied by alpha. -/
structure Color where
  red : UInt16
  green : UInt16
  blue : UInt16
  alpha : UInt16
deriving DecidableEq, Repr, Inhabited

namespace Color

/-- The channel with a given high byte; all ones stay all ones. -/
def widen (v : UInt8) : UInt16 := UInt16.ofNat (v.toNat * 257)

/-- The color with channels of eight bits that are multiplied by alpha already. -/
def ofBytes (r g b a : UInt8) : Color := ⟨widen r, widen g, widen b, widen a⟩

/-- A channel of eight bits multiplied by alpha. -/
def weighted (a v : UInt8) : UInt16 := UInt16.ofNat (v.toNat * 257 * a.toNat / 255)

/-- The color with channels of eight bits that are not yet multiplied by alpha. -/
def ofStraight (r g b a : UInt8) : Color := ⟨weighted a r, weighted a g, weighted a b, widen a⟩

/-- The opaque gray of a brightness. -/
def gray (y : UInt8) : Color := ofBytes y y y 255

/-- The color of what has no other color. -/
def alert : Color := ofBytes 255 0 0 255

end Color

/-! ## Numbers between zero and one -/

namespace Binary32

/-- The number that lies between two others, a part of the way. -/
def blend (x y part : Binary32) : Binary32 := x * (1 - part) + y * part

/-- The cubic that rises from zero at one edge to one at the other. -/
def rise (e0 e1 x : Binary32) : Binary32 :=
  let t := ((x - e0) / (e1 - e0)).clamp 0 1
  (t * t) * (3 - 2 * t)

/-- The last of 256 steps from zero to one that is not above. -/
def toByteBelow (x : Binary32) : UInt8 := UInt8.ofNat (x.clamp 0 1 * 255).toInt.toNat

end Binary32

/-- The nearest of 256 steps from zero to one. -/
def Arith.toByte (a : Arith) (x : Binary32) : UInt8 :=
  UInt8.ofNat (a.add (a.mul (a.clamp x 0 1) 255) 0.5).toInt.toNat

/-! ## Hue, saturation and brightness -/

/-- A color by hue, saturation and brightness, each between zero and one. -/
structure Hsv where
  hue : Binary32
  saturation : Binary32
  brightness : Binary32
deriving DecidableEq, Repr

namespace Hsv

/-- A part of a whole. -/
def part (n d : Nat) : Binary32 := .ofRatio false n d

/-- Hue, saturation and brightness of red, green and blue between zero and one. -/
def ofRgb (r g b : Binary32) : Hsv :=
  let most := (r.max g).max b
  let spread := most - (r.min g).min b
  let hue :=
    if spread.eq 0 then 0
    else if most.eq r then (g - b) / (spread * 6)
    else if most.eq g then part 1 3 + (b - r) / (spread * 6)
    else part 2 3 + (r - g) / (spread * 6)
  ⟨if hue.lt 0 then hue + 1 else hue, if Binary32.lt 0 most then spread / most else 0, most⟩

/-- Hue, saturation and brightness of a color; alpha does not count. -/
def ofColor (c : Color) : Hsv :=
  let channel := fun (v : UInt16) => Binary32.ofInt (v.toNat / 256) / 255
  ofRgb (channel c.red) (channel c.green) (channel c.blue)

/-- Red, green and blue: which of them is strongest goes by sixths of the hue. -/
def toRgb (c : Hsv) : Binary32 × Binary32 × Binary32 :=
  let strong := c.saturation * c.brightness
  let middle := strong * (1 - ((c.hue * 6).rem 2 - 1).abs)
  let base := c.brightness - strong
  let within := fun low high => (part low 6).lt c.hue && c.hue.le (part high 6)
  let (r, g, b) :=
    if Binary32.le 0 c.hue && c.hue.le (part 1 6) then (strong, middle, 0)
    else if within 1 2 then (middle, strong, 0)
    else if within 2 3 then (0, strong, middle)
    else if within 3 4 then (0, middle, strong)
    else if within 4 5 then (middle, 0, strong)
    else if within 5 6 then (strong, 0, middle)
    else (0, 0, 0)
  (r + base, g + base, b + base)

/-- The color a part of the way from one to another; the hue takes the shorter way around. -/
def between (c0 c1 : Hsv) (t : Binary32) : Hsv :=
  let way := c1.hue - c0.hue
  let h0 := if Binary32.lt 0.5 way then c0.hue + 1 else c0.hue
  let h1 := if !Binary32.lt 0.5 way && way.lt (-0.5) then c1.hue + 1 else c1.hue
  let hue := h0.blend h1 t
  ⟨if Binary32.lt 1 hue then hue - 1 else hue, c0.saturation.blend c1.saturation t,
    c0.brightness.blend c1.brightness t⟩

def color (c : Hsv) : Color :=
  let (r, g, b) := c.toRgb
  .ofBytes r.toByteBelow g.toByteBelow b.toByteBelow 255

end Hsv

/-! ## Colormaps -/

/-- How a single number becomes a color, if not by its brightness. -/
inductive Colormap where
  /-- From one color at zero to another at one. -/
  | gradient (c0 c1 : Color)
  /-- Bands of a width, darker at their edges. -/
  | bands (width : Binary32)
deriving DecidableEq, Repr

namespace Colormap

/-- The brightness of a number under bands of a width. -/
def bandBrightness (width x : Binary32) : Binary32 :=
  let t := x * (1 / width)
  let f := t - t.floor
  let edge := Binary32.rise 0 0.05 f * (1 - Binary32.rise 0.95 1 f)
  let base := Binary32.blend 0.3 0.9 (x.clamp 0 1)
  base * (0.75 + 0.25 * edge)

def color (m : Colormap) (x : Binary32) : Color :=
  match m with
  | .gradient c0 c1 =>
    if x.le 0 then c0
    else if Binary32.le 1 x then c1
    else ((Hsv.ofColor c0).between (Hsv.ofColor c1) x).color
  | .bands width => .gray (Arith.standard.toByte (bandBrightness width x))

/-- The gradient from dark blue to yellow. -/
def dusk : Colormap := .gradient (.ofBytes 0 0 128 255) (.ofBytes 255 220 0 255)

/-- The colormap with a name, and with a width for its bands. Gray is no colormap. -/
def ofName (name : String) (width : Binary32) : Except Error (Option Colormap) :=
  match name with
  | "gray" | "" => .ok none
  | "gradient" => .ok (some dusk)
  | "bands" => if Binary32.lt 0 width then .ok (some (.bands width)) else .error (.cause (.bandWidth width))
  | _ => .error (.cause (.unknownColormap name))

end Colormap

/-- The color of a value, with a way to color single numbers; without one they are gray. The components of
a vector are red, green, blue and alpha; the first two may stand alone, and so may the first three. A value
with a NaN in it, and a matrix, have the color of alert. -/
def Value.color (a : Arith) (v : Value) (single : Option (Binary32 → Color)) : Color :=
  if v.comps.any Binary32.isNaN then .alert
  else
    let byte := fun i => a.toByte (v.lane i)
    match v.shape with
    | .float =>
      match single with
      | some color => color (v.lane 0)
      | none => .gray (byte 0)
    | .vec2 => .ofBytes (byte 0) (byte 1) 0 255
    | .vec3 => .ofBytes (byte 0) (byte 1) (byte 2) 255
    | .vec4 => .ofStraight (byte 0) (byte 1) (byte 2) (byte 3)
    | _ => .alert

end ShaderExpr
