import ShaderExpr.Binary32.Arithmetic

/-!
# Elementary functions on single precision numbers

Each function is a fixed sequence of rounded operations: an argument reduction, a polynomial or a
quotient of polynomials, and a final scaling. The last bits of the results are part of the definition,
so the order of the operations is too.
-/

namespace ShaderExpr.Binary32

/-- The value of a polynomial, leading coefficient first. -/
def horner (z : Binary32) : List Binary32 → Binary32
  | [] => 0
  | c :: cs => cs.foldl (fun p c => p * z + c) c

/-! ## Scaling by powers of two -/

/-- Exponent of the leading bit of a finite number other than zero. -/
def leadingExponent (x : Binary32) : Int := (x.significand.log2 : Int) + x.exponent

/-- The number times `2 ^ k`. A leading bit below the last place of the least number gives zero, even
where rounding would not. -/
def scale (x : Binary32) (k : Int) : Binary32 :=
  if !x.isFinite || x.isZero then x
  else if x.leadingExponent + k < -149 then zeroOf x.isNegative
  else if 127 < x.leadingExponent + k then infinite x.isNegative
  else
    let q := x.exponent + k
    ofRatio x.isNegative (x.significand * Nat.pow 2 q.toNat) (Nat.pow 2 (-q).toNat)

/-- A finite number other than zero as a fraction in `[1/2, 1)` with its sign, times a power of two. -/
def fraction (x : Binary32) : Binary32 × Int :=
  let e := x.leadingExponent + 1
  (x.scale (-e), e)

/-! ## Exponential and logarithm -/

/-- The integer nearest to a number if it fits 32 bits, else the least 32 bit integer. -/
def nearestInt32 (x : Binary32) : Int :=
  let n := x.toIntNearest
  let bound : Int := Nat.pow 2 31
  if x.isFinite && -bound ≤ n && n < bound then n else -bound

/-- The exponential function. The reduced argument enters a polynomial whose leading coefficient is
shifted by the exponent of the result, and the value is squared four times at the end. Arguments too
large for the reduction give zero. -/
def exp (x : Binary32) : Binary32 :=
  if x.isNaN then x
  else if x.isInfinite then (if x.isNegative then 0 else x)
  else
    let k := (x * 1.44269502162933349609375).nearestInt32
    let kf := ofInt k
    let x := x - 0.693145751953125 * kf
    let x := x - 1.428606765330187045e-06 * kf
    let x := x * 0.0625
    let p := horner x [kf + 0.00836596917361021041870117, 0.0416710823774337768554688,
      0.166665524244308471679688, 0.5, 1.0]
    let x := x * p
    let x := x * (x + 2)
    let x := x * (x + 2)
    let x := x * (x + 2)
    let x := x * (x + 2)
    let x := x + 1
    if k + 127 ≤ 0 then 0
    else if 255 ≤ k + 127 then infinite false
    else x * ofParts false ((k + 127).toNat * Nat.pow 2 23)

/-- The natural logarithm. The coefficient bits are taken as they stand, also of subnormal numbers. -/
def log (x : Binary32) : Binary32 :=
  if x.isZero then infinite true
  else if x.isNaN then x
  else if x.isNegative then nan
  else if x.isInfinite then x
  else
    let f1 := ofParts false (x.magnitude % Nat.pow 2 23 + 126 * Nat.pow 2 23)
    let k : Int := ((x.magnitude / Nat.pow 2 23 : Nat) : Int) - 126
    let low := f1.le 7.07106781186547524401e-01
    let k := if low then k - 1 else k
    let f1 := if low then f1 * 2 else f1
    let f := f1 - 1
    let k := ofInt k
    let s := f / (2 + f)
    let s2 := s * s
    let s4 := s2 * s2
    let t1 := s2 * horner s4
      [1.4798198640e-01, 1.8183572590e-01, 2.8571429849e-01, 6.6666668653e-01]
    let t2 := s4 * horner s4 [1.5313838422e-01, 2.2222198546e-01, 4.0000000596e-01]
    let r := t1 + t2
    let h := 0.5 * f * f
    k * 6.9313812256e-01 - ((h - (s * (h + r) + k * 9.0580006145e-06)) - f)

/-! ## Trigonometric functions -/

/-- The argument of a trigonometric function: the number of its eighth of a turn, made even, and the
distance from there. -/
def octant (x : Binary32) : Nat × Binary32 :=
  let j := (x * (4 / 3.14159265358979323846)).wholePart
  let y := ofRatio false j 1
  let (j, y) := if j % 2 = 1 then (j + 1, y + 1) else (j, y)
  let z := ((x - y * 7.85398125648498535156e-1) - y * 3.77489470793079817668e-8) -
    y * 2.69515142907905952645e-15
  (j, z)

/-- The sine near zero. -/
def sinSeries (z : Binary32) : Binary32 :=
  let zz := z * z
  z + z * zz * horner zz [1.58962301576546568060e-10, -2.50507477628578072866e-8,
    2.75573136213857245213e-6, -1.98412698295895385996e-4, 8.33333333332211858878e-3,
    -1.66666666666666307295e-1]

/-- The cosine near zero. -/
def cosSeries (z : Binary32) : Binary32 :=
  let zz := z * z
  1 - 0.5 * zz + zz * zz * horner zz [-1.13585365213876817300e-11, 2.08757008419747316778e-9,
    -2.75573141792967388112e-7, 2.48015872888517045348e-5, -1.38888888888730564116e-3,
    4.16666666666665929218e-2]

/-- The opposite number if a condition holds. -/
def negIf (b : Bool) (x : Binary32) : Binary32 := if b then -x else x

def sin (x : Binary32) : Binary32 :=
  if x.isZero || x.isNaN then x
  else if x.isInfinite then nan
  else
    let (j, z) := x.abs.octant
    let lower := j % 8 > 3
    let y := if j % 4 = 1 ∨ j % 4 = 2 then cosSeries z else sinSeries z
    negIf (x.isNegative != lower) y

def cos (x : Binary32) : Binary32 :=
  if x.isNaN || x.isInfinite then nan
  else
    let (j, z) := x.abs.octant
    let lower := j % 8 > 3
    let left := j % 4 > 1
    let y := if j % 4 = 1 ∨ j % 4 = 2 then sinSeries z else cosSeries z
    negIf (left != lower) y

def tan (x : Binary32) : Binary32 :=
  if x.isZero || x.isNaN then x
  else if x.isInfinite then nan
  else
    let (j, z) := x.abs.octant
    let zz := z * z
    let y :=
      if lt 1e-14 zz then
        z + z * (zz * horner zz [-1.30936939181383777646e4, 1.15351664838587416140e6,
            -1.79565251976484877988e7] /
          horner zz [1, 1.36812963470692954678e4, -1.32089234440210967447e6,
            2.50083801823357915839e7, -5.38695755929454629881e7])
      else z
    let y := if j % 4 ≥ 2 then -1 / y else y
    negIf x.isNegative y

/-! ## Powers -/

/-- Is a number an odd integer? -/
def isOdd (y : Binary32) : Bool := y.isFinite && y.isIntegral && y.wholePart % 2 == 1

/-- Powers of a zero, for an exponent other than zero. -/
def powOfZero (x y : Binary32) : Binary32 :=
  if y.lt 0 then (if y.isOdd then infinite x.isNegative else infinite false)
  else if y.isOdd then x
  else 0

/-- The binary digits of a natural, lowest first. -/
def binaryDigits (n : Nat) : List Bool :=
  if n = 0 then [] else (List.range (n.log2 + 1)).map n.testBit

/-- A product under way: the result so far and the current square, each as a fraction and a power of
two. -/
structure Powers where
  result : Binary32
  resultExponent : Int
  square : Binary32
  squareExponent : Int

/-- Takes up one binary digit of the exponent. -/
def Powers.step (p : Powers) (digit : Bool) : Powers :=
  let (a, ae) :=
    if digit then (p.result * p.square, p.resultExponent + p.squareExponent)
    else (p.result, p.resultExponent)
  let x := p.square * p.square
  let xe := 2 * p.squareExponent
  if x.lt 0.5 then ⟨a, ae, x + x, xe - 1⟩ else ⟨a, ae, x, xe⟩

/-- The power of a finite number other than zero to a finite exponent: squaring for the integer part,
exponential and logarithm for the fraction. -/
def powFinite (x y : Binary32) : Binary32 :=
  let yi := y.wholePart
  let yf := y.abs - y.abs.truncated
  if !yf.isZero && x.lt 0 then nan
  else if Nat.pow 2 31 ≤ yi then (y * x.log).exp
  else
    let round := lt 0.5 yf
    let yi := if round then yi + 1 else yi
    let start := if yf.isZero then 1 else ((if round then yf - 1 else yf) * x.log).exp
    let (x1, xe) := x.fraction
    let p := (binaryDigits yi).foldl Powers.step ⟨start, 0, x1, xe⟩
    if y.lt 0 then scale (1 / p.result) (-p.resultExponent) else scale p.result p.resultExponent

/-- The power function. -/
def pow (x y : Binary32) : Binary32 :=
  if y.isZero || x.eq 1 then 1
  else if y.eq 1 then x
  else if y.eq 0.5 then x.sqrt
  else if y.eq (-0.5) then 1 / x.sqrt
  else if x.isNaN || y.isNaN then nan
  else if x.isZero then powOfZero x y
  else if y.isInfinite then
    if x.eq (-1) then 1
    else if x.abs.lt 1 == !y.isNegative then 0
    else infinite false
  else if x.isInfinite then
    if x.isNegative then powOfZero (zeroOf true) (-y)
    else if y.lt 0 then 0
    else x
  else powFinite x y

end ShaderExpr.Binary32
