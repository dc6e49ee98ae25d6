import ShaderExpr.Binary32.Rounding

/-!
# Single precision numbers

A number is its bit pattern: a sign bit and a magnitude. Two numbers are equal as values of this type
when their bits are, so minus zero differs from zero; the comparisons of arithmetic are elsewhere.
-/

namespace ShaderExpr

/-- A single precision number, given by its bits. -/
structure Binary32 where
  bits : UInt32
deriving DecidableEq, Inhabited, Repr

namespace Binary32

/-- The number with a sign and a magnitude pattern below `2 ^ 31`. -/
def ofParts (negative : Bool) (magnitude : Nat) : Binary32 :=
  ⟨UInt32.ofNat (magnitude + if negative then Nat.pow 2 31 else 0)⟩

/-- The sign bit. -/
def isNegative (x : Binary32) : Bool := Nat.pow 2 31 ≤ x.bits.toNat

/-- The bits without the sign. -/
def magnitude (x : Binary32) : Nat := x.bits.toNat % Nat.pow 2 31

def isNaN (x : Binary32) : Bool := BinaryFormat.single.infinity < x.magnitude

def isInfinite (x : Binary32) : Bool := x.magnitude == BinaryFormat.single.infinity

def isFinite (x : Binary32) : Bool := x.magnitude < BinaryFormat.single.infinity

def isZero (x : Binary32) : Bool := x.magnitude == 0

/-- Coefficient of a finite number. -/
def significand (x : Binary32) : Nat := (BinaryFormat.single.decode x.magnitude).1

/-- Exponent of a finite number: its absolute value is `x.significand * 2 ^ x.exponent`. -/
def exponent (x : Binary32) : Int := (BinaryFormat.single.decode x.magnitude).2

/-- The number nearest to `n / d`, with a sign. -/
def ofRatio (negative : Bool) (n d : Nat) : Binary32 :=
  ofParts negative (BinaryFormat.single.round n d)

def nan : Binary32 := ⟨0x7fc00000⟩

/-- Infinity with a sign. -/
def infinite (negative : Bool) : Binary32 := ofParts negative BinaryFormat.single.infinity

/-- Zero with a sign. -/
def zeroOf (negative : Bool) : Binary32 := ofParts negative 0

/-- The number nearest to an integer. -/
def ofInt (n : Int) : Binary32 := ofRatio (n < 0) n.natAbs 1

instance (n : Nat) : OfNat Binary32 n := ⟨ofRatio false n 1⟩

instance : OfScientific Binary32 where
  ofScientific m negativeExponent e :=
    if negativeExponent then ofRatio false m (Nat.pow 10 e) else ofRatio false (m * Nat.pow 10 e) 1

/-- The opposite number: the sign bit is flipped, also that of zero and of NaN. -/
def neg (x : Binary32) : Binary32 := ofParts (!x.isNegative) x.magnitude

/-- The absolute value: the sign bit is cleared. -/
def abs (x : Binary32) : Binary32 := ofParts false x.magnitude

instance : Neg Binary32 := ⟨neg⟩

end Binary32

end ShaderExpr
