import ShaderExpr.Binary32.Basic
import ShaderExpr.Text.Quoted

/-!
# Numerals

The text of a number: an optional sign, then decimal digits with an optional point and an optional
power of ten, or `0x` and hexadecimal digits with an optional point and a required power of two, or
the name of infinity or of NaN in any case. An underscore may stand between two digits, and after
`0x`. Reading the text gives an exact `Numeral`; rounding it to a format is a second step.
-/

namespace ShaderExpr

/-- What a numeral denotes, before rounding. -/
inductive Numeral where
  /-- A coefficient times a power of ten. -/
  | decimal (negative : Bool) (coefficient : Nat) (exponent : Int)
  /-- A coefficient times a power of two. -/
  | hexadecimal (negative : Bool) (coefficient : Nat) (exponent : Int)
  | infinity (negative : Bool)
  | notANumber
deriving DecidableEq, Repr

namespace Numeral

/-- The value of a digit of some base, as large as sixteen. -/
def digit? (base : Nat) (c : Char) : Option Nat :=
  let n :=
    if '0' ≤ c && c ≤ '9' then c.toNat - 48
    else if 'a' ≤ c && c ≤ 'f' then c.toNat - 87
    else if 'A' ≤ c && c ≤ 'F' then c.toNat - 55
    else base
  if n < base then some n else none

def isDigit (base : Nat) (c : Char) : Bool := (digit? base c).isSome

/-- Every underscore follows a digit and is followed by one. -/
def separated (base : Nat) (afterDigit : Bool) : List Char → Bool
  | [] => true
  | c :: cs =>
    if c == '_' then afterDigit && (cs.head?.any (isDigit base)) && separated base false cs
    else separated base (isDigit base c) cs

/-- The natural that a list of digits spells, continuing from `n`. -/
def digitsFrom (base n : Nat) (ds : List Char) : Nat :=
  ds.foldl (fun n c => n * base + (digit? base c).getD 0) n

/-- Exponents beyond the largest that can matter stop growing. -/
def exponentDigits (ds : List Char) : Nat :=
  ds.foldl (fun n c => if n < 10000 then n * 10 + (digit? 10 c).getD 0 else n) 0

/-- A sign and what follows it; a missing sign is plus. -/
def splitSign : List Char → Bool × List Char
  | '+' :: cs => (false, cs)
  | '-' :: cs => (true, cs)
  | cs => (false, cs)

/-- An exponent: a sign and at least one digit, and nothing else. -/
def exponent? (cs : List Char) : Option Int :=
  let (negative, ds) := splitSign cs
  if ds.isEmpty || !ds.all (isDigit 10) then none
  else some (if negative then -(exponentDigits ds : Int) else exponentDigits ds)

/-- Digits with an optional point, then what is left: the coefficient and how many digits stand
after the point. -/
def coefficient? (base : Nat) (cs : List Char) : Option (Nat × Nat × List Char) :=
  let whole := cs.takeWhile (isDigit base)
  let rest := cs.dropWhile (isDigit base)
  let (part, rest) :=
    match rest with
    | '.' :: rest => (rest.takeWhile (isDigit base), rest.dropWhile (isDigit base))
    | _ => ([], rest)
  if whole.isEmpty && part.isEmpty then none
  else some (digitsFrom base 0 (whole ++ part), part.length, rest)

/-- A decimal numeral without sign and underscores. -/
def decimal? (negative : Bool) (cs : List Char) : Option Numeral :=
  match coefficient? 10 cs with
  | none => none
  | some (n, places, []) => some (.decimal negative n (-(places : Int)))
  | some (n, places, c :: cs) =>
    if c == 'e' || c == 'E' then (exponent? cs).map fun e => .decimal negative n (e - places)
    else none

/-- A hexadecimal numeral after `0x`, without underscores. Its exponent may not be left out. -/
def hexadecimal? (negative : Bool) (cs : List Char) : Option Numeral :=
  match coefficient? 16 cs with
  | some (n, places, c :: cs) =>
    if c == 'p' || c == 'P' then (exponent? cs).map fun e => .hexadecimal negative n (e - 4 * places)
    else none
  | _ => none

/-- The digits after `0x`, if the text starts so and goes on. -/
def hexadecimalBody? : List Char → Option (List Char)
  | '0' :: 'x' :: c :: cs => some (c :: cs)
  | '0' :: 'X' :: c :: cs => some (c :: cs)
  | _ => none

/-- Reads a whole text as a numeral. -/
def ofChars? (cs : List Char) : Option Numeral :=
  let (negative, body) := splitSign cs
  let word := String.ofList (body.map Char.toLower)
  if word == "inf" || word == "infinity" then some (.infinity negative)
  else if word == "nan" && body.length == cs.length then some .notANumber
  else
    let clean := fun (cs : List Char) => cs.filter (· != '_')
    match hexadecimalBody? body with
    | some digits =>
      if separated 16 true digits then hexadecimal? negative (clean digits) else none
    | none => if separated 10 false body then decimal? negative (clean body) else none

def ofString? (s : String) : Option Numeral := ofChars? s.toList

/-- A positive or negative quotient whose value is the numeral's. -/
def ratio (base coefficient : Nat) (exponent : Int) : Nat × Nat :=
  (coefficient * Nat.pow base exponent.toNat, Nat.pow base (-exponent).toNat)

/-- Sign and pattern of the nearest number of a format, if it is not too large for it. -/
def round? (f : BinaryFormat) : Numeral → Option (Bool × Nat)
  | .decimal negative n e => finite negative (ratio 10 n e)
  | .hexadecimal negative n e => finite negative (ratio 2 n e)
  | .infinity negative => some (negative, f.infinity)
  | .notANumber => some (false, f.infinity + Nat.pow 2 (f.precision - 2))
where
  finite (negative : Bool) (q : Nat × Nat) : Option (Bool × Nat) :=
    let pattern := f.round q.1 q.2
    if pattern < f.infinity then some (negative, pattern) else none

/-- Why a text gives no number. -/
inductive Flaw where
  | malformed
  | outOfRange
deriving DecidableEq, Repr

/-- The wording of a flaw of a text. -/
def Flaw.message (text : String) : Flaw → String
  | .malformed => "strconv.ParseFloat: parsing " ++ Text.quote text ++ ": invalid syntax"
  | .outOfRange => "strconv.ParseFloat: parsing " ++ Text.quote text ++ ": value out of range"

/-- Sign and pattern that a text denotes in a format. -/
def read (f : BinaryFormat) (s : String) : Except Flaw (Bool × Nat) :=
  match ofString? s with
  | none => .error .malformed
  | some n =>
    match n.round? f with
    | none => .error .outOfRange
    | some r => .ok r

end Numeral

/-- The single precision number that a text denotes, rounded once. -/
def Binary32.read (s : String) : Except Numeral.Flaw Binary32 :=
  (Numeral.read .single s).map fun (negative, pattern) => Binary32.ofParts negative pattern

/-- The single precision number that a text denotes, rounded to double precision first. -/
def Binary32.readTwice (s : String) : Except Numeral.Flaw Binary32 :=
  (Numeral.read .double s).map fun (negative, pattern) =>
    if BinaryFormat.double.infinity < pattern then .nan
    else .ofParts negative (BinaryFormat.convert .double .single pattern)

end ShaderExpr
