/-!
# Rounding to a binary format

A binary format holds the numbers `m * 2 ^ q` whose coefficient `m` fits the precision and whose
exponent `q` is at least the exponent of its smallest positive number. Read as naturals, the bit
patterns of the nonnegative numbers count these numbers in increasing order, infinity last. Rounding
a quotient goes to the nearest of them and, from the middle, to the even pattern.
-/

namespace ShaderExpr

/-- A binary format of floating point numbers. -/
structure BinaryFormat where
  /-- Bits of the coefficient, the hidden one included. -/
  precision : Nat
  /-- Exponent of the smallest positive number. -/
  least : Int
  /-- Pattern of infinity, the first that is no finite number. -/
  infinity : Nat
deriving DecidableEq, Repr

namespace BinaryFormat

/-- Single precision. -/
def single : BinaryFormat := ⟨24, -149, 0x7f800000⟩

/-- Double precision. -/
def double : BinaryFormat := ⟨53, -1074, 0x7ff0000000000000⟩

/-- The natural nearest to `n / d`; from the middle, the even one. -/
def divNearestEven (n d : Nat) : Nat :=
  let k := n / d
  let r := n % d
  if 2 * r < d then k else if d < 2 * r then k + 1 else k + k % 2

/-- The greatest `e` with `2 ^ e ≤ n / d`, for positive `n` and `d`. -/
def binaryExponent (n d : Nat) : Int :=
  let e : Int := (n.log2 : Int) - (d.log2 : Int)
  if n * Nat.pow 2 (-e).toNat < d * Nat.pow 2 e.toNat then e - 1 else e

/-- The pattern of `m * 2 ^ q`. A coefficient that reaches the next power of two carries into the
exponent, and everything beyond the finite numbers is infinity. -/
def encode (f : BinaryFormat) (m : Nat) (q : Int) : Nat :=
  min f.infinity ((q - f.least).toNat * Nat.pow 2 (f.precision - 1) + m)

/-- Coefficient and exponent of a finite pattern. -/
def decode (f : BinaryFormat) (pattern : Nat) : Nat × Int :=
  let unit := Nat.pow 2 (f.precision - 1)
  let e := pattern / unit
  if e = 0 then (pattern, f.least) else (pattern % unit + unit, f.least + e - 1)

/-- The pattern of the number of the format nearest to `n / d`. -/
def round (f : BinaryFormat) (n d : Nat) : Nat :=
  if n = 0 then 0
  else
    let q := max f.least (binaryExponent n d - (f.precision - 1))
    f.encode (divNearestEven (n * Nat.pow 2 (-q).toNat) (d * Nat.pow 2 q.toNat)) q

/-- The pattern in `g` nearest to a finite pattern of `f`. -/
def convert (f g : BinaryFormat) (pattern : Nat) : Nat :=
  if f.infinity ≤ pattern then g.infinity
  else
    let (m, q) := f.decode pattern
    g.round (m * Nat.pow 2 q.toNat) (Nat.pow 2 (-q).toNat)

end BinaryFormat

end ShaderExpr
