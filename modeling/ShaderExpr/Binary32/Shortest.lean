import ShaderExpr.Binary32.Basic

/-!
# Shortest decimal text

The reals that round to a finite number form an interval. The text of the number is the point of that
interval on the coarsest grid of powers of ten that has one; of two points the nearer, and from the
middle the even one. Everything is decided on naturals: both sides of a comparison are scaled until
neither has a denominator.
-/

namespace ShaderExpr

/-- A coefficient times a power of ten. -/
structure Decimal where
  coefficient : Nat
  exponent : Int
deriving DecidableEq, Repr

namespace Binary32

/-! ## The rounding interval

For a number `m * 2 ^ q` the unit is a quarter of the last place, `2 ^ (q - 2)`, so that the number is
at `4 * m`. -/

/-- Upper end of the rounding interval. -/
def upperEnd (m : Nat) : Nat := 4 * m + 2

/-- Lower end of the rounding interval. Below a power of two the numbers lie twice as close, except at
the least exponent. -/
def lowerEnd (m : Nat) (q : Int) : Nat :=
  if m = Nat.pow 2 23 ∧ -149 < q then 4 * m - 1 else 4 * m - 2

/-- A multiple of `10 ^ k`, scaled for comparison with quarters of `2 ^ q`. -/
def scaleDecimal (k q : Int) (n : Nat) : Nat := n * (Nat.pow 10 k.toNat * Nat.pow 2 (2 - q).toNat)

/-- Quarters of `2 ^ q`, scaled for comparison with multiples of `10 ^ k`. -/
def scaleBinary (k q : Int) (x : Nat) : Nat := x * (Nat.pow 2 (q - 2).toNat * Nat.pow 10 (-k).toNat)

/-- Does `n * 10 ^ k` round to `m * 2 ^ q`? The ends of the interval do if `m` is even. -/
def roundsTo (m : Nat) (q k : Int) (n : Nat) : Bool :=
  let x := scaleDecimal k q n
  let lo := scaleBinary k q (lowerEnd m q)
  let hi := scaleBinary k q (upperEnd m)
  if m % 2 = 0 then lo ≤ x && x ≤ hi else lo < x && x < hi

/-- The point of a grid nearest to the number among those that round to it. -/
def onGrid? (m : Nat) (q k : Int) : Option Nat :=
  let v := scaleBinary k q (4 * m)
  let n := v / scaleDecimal k q 1
  match roundsTo m q k n, roundsTo m q k (n + 1) with
  | false, false => none
  | true, false => some n
  | false, true => some (n + 1)
  | true, true =>
    let below := v - scaleDecimal k q n
    let above := scaleDecimal k q (n + 1) - v
    if below < above then some n
    else if above < below then some (n + 1)
    else some (n + n % 2)

/-- The first grid with a point, going down from `10 ^ (g - 47)`. No number is below `10 ^ (-45)`, so
the search ends before `g` runs out. -/
def coarsest (m : Nat) (q : Int) : Nat → Decimal
  | 0 => ⟨0, 0⟩
  | g + 1 =>
    let k : Int := (g : Int) - 46
    match onGrid? m q k with
    | some n => ⟨n, k⟩
    | none => coarsest m q g

/-- The shortest decimal that rounds to `m * 2 ^ q`. -/
def shortestOf (m : Nat) (q : Int) : Decimal := if m = 0 then ⟨0, 0⟩ else coarsest m q 86

/-- The shortest decimal that rounds to the absolute value of a finite number. -/
def shortest (x : Binary32) : Decimal := shortestOf x.significand x.exponent

end Binary32

namespace Decimal

def digits (d : Decimal) : List Char := Nat.toDigits 10 d.coefficient

/-- The digits before and after the point, in positional writing. There is always one before it. -/
def positional (d : Decimal) : List Char × List Char :=
  if 0 ≤ d.exponent then (d.digits ++ List.replicate d.exponent.toNat '0', [])
  else
    let places := (-d.exponent).toNat
    let ds := List.replicate (places + 1 - d.digits.length) '0' ++ d.digits
    (ds.take (ds.length - places), ds.drop (ds.length - places))

end Decimal

namespace Binary32

/-- The minus sign of a negative number. -/
def signText (x : Binary32) : List Char := if x.isNegative then ['-'] else []

/-- The text of a number in positional writing with a point, at least one digit on both sides of it. -/
def text (x : Binary32) : String :=
  if x.isNaN then "NaN"
  else if x.isInfinite then (if x.isNegative then "-Inf" else "+Inf")
  else
    let (whole, part) := x.shortest.positional
    String.ofList (x.signText ++ whole ++ '.' :: (if part.isEmpty then ['0'] else part))

/-- Texts of numbers, separated by a comma and a space. -/
def texts (xs : List Binary32) : String := ", ".intercalate (xs.map text)

/-! ## Buffers

The text of a number can also be appended to a buffer. Then the plain digits come first, and `.0` is added
behind them if they lack a point. -/

/-- The text of a number in positional writing with a point only before a fraction. -/
def plain (x : Binary32) : String :=
  if x.isNaN then "NaN"
  else if x.isInfinite then (if x.isNegative then "-Inf" else "+Inf")
  else
    let (whole, part) := x.shortest.positional
    String.ofList (x.signText ++ whole ++ (if part.isEmpty then [] else '.' :: part))

/-- At least one digit after an optional minus sign, and nothing else; so neither infinity nor NaN. -/
def isWhole (cs : List Char) : Bool :=
  let digits := if cs.head? = some '-' then cs.tail else cs
  !digits.isEmpty && digits.all Char.isDigit

/-- Appends the text of a number to a buffer. Whether a point is lacking is asked of what was appended, not
of what stood in the buffer before. -/
def appendTo (x : Binary32) (buffer : String) : String :=
  let longer := buffer ++ x.plain
  let added := longer.toList.drop buffer.length
  if !added.contains '.' && isWhole added then longer ++ ".0" else longer

/-- Appends texts of numbers, separated by a comma and a space. -/
def appendAllTo (buffer : String) : List Binary32 → String
  | [] => buffer
  | x :: xs => xs.foldl (fun buffer y => y.appendTo (buffer ++ ", ")) (x.appendTo buffer)

/-! ## Messages -/

/-- The exponent of the leading digit when it leaves the range that is written positionally: below
`10 ^ (-4)` and from `10 ^ 6` on. -/
def scientificExponent? (d : Decimal) : Option Int :=
  let e := d.exponent + (d.digits.length : Int) - 1
  if d.coefficient ≠ 0 ∧ (e < -4 ∨ 6 ≤ e) then some e else none

/-- The text of a number in messages: no point unless it has a fraction, and a power of ten of at
least two digits for the very small and the large. -/
def display (x : Binary32) : String :=
  if x.isNaN then "NaN"
  else if x.isInfinite then (if x.isNegative then "-Inf" else "+Inf")
  else
    let d := x.shortest
    let pointed := fun (whole part : List Char) => if part.isEmpty then whole else whole ++ '.' :: part
    match scientificExponent? d with
    | none =>
      let (whole, part) := d.positional
      String.ofList (x.signText ++ pointed whole part)
    | some e =>
      let power := Nat.toDigits 10 e.natAbs
      let power := List.replicate (2 - power.length) '0' ++ power
      String.ofList (x.signText ++ pointed (d.digits.take 1) (d.digits.drop 1) ++
        'e' :: (if e < 0 then '-' else '+') :: power)

end Binary32

end ShaderExpr
