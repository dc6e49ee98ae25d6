import ShaderExpr.Image

/-!
# PNG files

The bytes of a PNG file that holds an image: a signature, then chunks with a check sum each. The pixels
are stored without compression, in blocks of a limited size.
-/

namespace ShaderExpr.Png

/-- The lowest bytes of a natural, as many as asked for, highest first. -/
def bigEndian : Nat → Nat → List UInt8
  | 0, _ => []
  | k + 1, n => bigEndian k (n / 256) ++ [UInt8.ofNat n]

/-- The lowest bytes of a natural, as many as asked for, lowest first. -/
def littleEndian : Nat → Nat → List UInt8
  | 0, _ => []
  | k + 1, n => UInt8.ofNat n :: littleEndian k (n / 256)

/-! ## Check sums -/

/-- Shifts a cyclic check sum by one bit. -/
def shiftBit (c : UInt32) : UInt32 := if c &&& 1 = 1 then (c >>> 1) ^^^ 0xedb88320 else c >>> 1

/-- Shifts a cyclic check sum by some bits. -/
def shiftBits : Nat → UInt32 → UInt32
  | 0, c => c
  | n + 1, c => shiftBits n (shiftBit c)

/-- Takes a byte into a cyclic check sum. -/
def takeByte (c : UInt32) (b : UInt8) : UInt32 := shiftBits 8 (c ^^^ b.toUInt32)

/-- The cyclic check sum of bytes. -/
def cyclicSum (bytes : List UInt8) : UInt32 := bytes.foldl takeByte 0xffffffff ^^^ 0xffffffff

/-- The two running sums of bytes, each below 65521, as one number. -/
def runningSum (bytes : List UInt8) : Nat :=
  let (a, b) := bytes.foldl (fun (a, b) v =>
    let a := (a + v.toNat) % 65521
    (a, (b + a) % 65521)) (1, 0)
  b * 65536 + a

/-! ## Chunks -/

/-- A chunk: its length, its kind, its data and the check sum of the two. -/
def chunk (kind : String) (data : List UInt8) : List UInt8 :=
  let body := kind.toList.map (fun c => UInt8.ofNat c.toNat) ++ data
  bigEndian 4 data.length ++ body ++ bigEndian 4 (cyclicSum body).toNat

/-- The most bytes that a block can hold. -/
def blockSize : Nat := 65535

/-- A block that is stored as it is. -/
def storedBlock (isLast : Bool) (data : List UInt8) : List UInt8 :=
  (if isLast then 1 else 0) :: littleEndian 2 data.length ++ littleEndian 2 (65535 - data.length) ++ data

/-- Data as blocks; `fuel` is at least the number of full blocks. -/
def blocks : Nat → List UInt8 → List UInt8
  | 0, data => storedBlock true data
  | fuel + 1, data =>
    if data.length ≤ blockSize then storedBlock true data
    else storedBlock false (data.take blockSize) ++ blocks fuel (data.drop blockSize)

/-- Data with a header, in blocks, and a check sum. -/
def stream (data : List UInt8) : List UInt8 :=
  [0x78, 0x01] ++ blocks (data.length / blockSize + 1) data ++ bigEndian 4 (runningSum data)

/-- A channel that is no longer multiplied by alpha. -/
def straight (alpha v : UInt8) : UInt8 :=
  if alpha = 0 then 0
  else UInt8.ofNat (min 255 (v.toNat * 257 * 65535 / (alpha.toNat * 257) / 256))

def pixelBytes (p : Pixel) : List UInt8 :=
  [straight p.alpha p.red, straight p.alpha p.green, straight p.alpha p.blue, p.alpha]

/-- The rows of an image, each behind a byte that says that it is stored as it is. -/
def imageBytes (i : Image) : List UInt8 := i.rows.flatMap fun row => 0 :: row.flatMap pixelBytes

/-- The bytes of the file of an image. -/
def encode (i : Image) : List UInt8 :=
  [0x89, 0x50, 0x4e, 0x47, 0x0d, 0x0a, 0x1a, 0x0a] ++
    chunk "IHDR" (bigEndian 4 i.width ++ bigEndian 4 i.height ++ [8, 6, 0, 0, 0]) ++
    chunk "IDAT" (stream (imageBytes i)) ++ chunk "IEND" []

end ShaderExpr.Png
