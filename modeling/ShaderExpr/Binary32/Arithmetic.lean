import ShaderExpr.Binary32.Basic

/-!
# Arithmetic on single precision numbers

Sums, products, quotients and square roots round once, to nearest even; comparisons are those of the
numbers, so that the two zeros are equal and NaN compares with nothing. Rounding to integers is done
on coefficient and exponent.
-/

namespace ShaderExpr.Binary32

def toFloat (x : Binary32) : Float32 := Float32.ofBits x.bits

def ofFloat (x : Float32) : Binary32 := ⟨x.toBits⟩

def add (x y : Binary32) : Binary32 := ofFloat (x.toFloat + y.toFloat)
def sub (x y : Binary32) : Binary32 := ofFloat (x.toFloat - y.toFloat)
def mul (x y : Binary32) : Binary32 := ofFloat (x.toFloat * y.toFloat)
def div (x y : Binary32) : Binary32 := ofFloat (x.toFloat / y.toFloat)
def sqrt (x : Binary32) : Binary32 := ofFloat x.toFloat.sqrt

instance : Add Binary32 := ⟨add⟩
instance : Sub Binary32 := ⟨sub⟩
instance : Mul Binary32 := ⟨mul⟩
instance : Div Binary32 := ⟨div⟩

/-- Place of a number other than NaN in the order of the numbers; both zeros have the same. -/
def rank (x : Binary32) : Int := if x.isNegative then -(x.magnitude : Int) else x.magnitude

/-- Less than; false if either side is NaN. -/
def lt (x y : Binary32) : Bool := !x.isNaN && !y.isNaN && x.rank < y.rank

/-- At most; false if either side is NaN. -/
def le (x y : Binary32) : Bool := !x.isNaN && !y.isNaN && x.rank ≤ y.rank

/-- Equal as numbers. -/
def eq (x y : Binary32) : Bool := !x.isNaN && !y.isNaN && x.rank = y.rank

/-! ## Integral parts -/

/-- Integer part of the absolute value of a finite number. -/
def wholePart (x : Binary32) : Nat :=
  x.significand * Nat.pow 2 x.exponent.toNat / Nat.pow 2 (-x.exponent).toNat

/-- Is a finite number an integer? -/
def isIntegral (x : Binary32) : Bool :=
  x.significand * Nat.pow 2 x.exponent.toNat % Nat.pow 2 (-x.exponent).toNat == 0

/-- A finite number without its fraction, with its sign. -/
def truncated (x : Binary32) : Binary32 := ofRatio x.isNegative x.wholePart 1

/-- The integer toward zero from a finite number. -/
def toInt (x : Binary32) : Int := if x.isNegative then -(x.wholePart : Int) else x.wholePart

/-- The integer nearest to a finite number; from the middle, the even one. -/
def toIntNearest (x : Binary32) : Int :=
  let n := BinaryFormat.divNearestEven (x.significand * Nat.pow 2 x.exponent.toNat)
    (Nat.pow 2 (-x.exponent).toNat)
  if x.isNegative then -(n : Int) else n

/-- The greatest integer that is not above. Zeros keep their sign; infinities and NaN stay. -/
def floor (x : Binary32) : Binary32 :=
  if !x.isFinite || x.isIntegral then x
  else if x.isNegative then ofRatio true (x.wholePart + 1) 1
  else ofRatio false x.wholePart 1

/-- The remainder of a division toward zero, with the sign of the dividend. It is exact. -/
def rem (x y : Binary32) : Binary32 :=
  if x.isNaN || y.isNaN || x.isInfinite || y.isZero then nan
  else if y.isInfinite || x.isZero then x
  else
    let e := min x.exponent y.exponent
    let n := x.significand * Nat.pow 2 (x.exponent - e).toNat %
      (y.significand * Nat.pow 2 (y.exponent - e).toNat)
    ofRatio x.isNegative (n * Nat.pow 2 e.toNat) (Nat.pow 2 (-e).toNat)

/-! ## Extremes -/

/-- The greater of two numbers. Plus infinity wins also over NaN, and plus zero over minus zero. -/
def max (x y : Binary32) : Binary32 :=
  if (x.isInfinite && !x.isNegative) || (y.isInfinite && !y.isNegative) then infinite false
  else if x.isNaN || y.isNaN then nan
  else if x.isZero && y.isZero then (if x.isNegative then y else x)
  else if y.lt x then x else y

/-- The lesser of two numbers. Minus infinity wins also over NaN, and minus zero over plus zero. -/
def min (x y : Binary32) : Binary32 :=
  if (x.isInfinite && x.isNegative) || (y.isInfinite && y.isNegative) then infinite true
  else if x.isNaN || y.isNaN then nan
  else if x.isZero && y.isZero then (if x.isNegative then x else y)
  else if x.lt y then x else y

/-- The nearest number between two bounds. -/
def clamp (x low high : Binary32) : Binary32 := min high (max x low)

end ShaderExpr.Binary32
