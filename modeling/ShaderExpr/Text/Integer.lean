import ShaderExpr.Binary32.Numeral

/-!
# Integers in text

A natural is written in the base that its start tells: `0x`, `0b` and `0o` in either case, a zero alone
for base eight, and base ten otherwise. An underscore may stand between two digits and after such a
start. An integer may have a sign.
-/

namespace ShaderExpr.Text

/-- The natural that digits of a base spell, at least one of them. -/
def digits? (base : Nat) (cs : List Char) : Option Nat :=
  if !cs.isEmpty && cs.all (Numeral.isDigit base) then some (Numeral.digitsFrom base 0 cs) else none

/-- The base of a natural, and its digits with underscores. -/
def baseOf : List Char → Nat × List Char
  | '0' :: c :: d :: cs =>
    if c == 'x' || c == 'X' then (16, d :: cs)
    else if c == 'b' || c == 'B' then (2, d :: cs)
    else if c == 'o' || c == 'O' then (8, d :: cs)
    else (8, '0' :: c :: d :: cs)
  | ['0', c] => (8, ['0', c])
  | cs => (10, cs)

/-- The natural that a text spells. -/
def natural? (cs : List Char) : Option Nat :=
  let (base, body) := baseOf cs
  if Numeral.separated base (body.length < cs.length) body then
    digits? base (body.filter (· != '_'))
  else none

/-- The integer of 64 bits that a text spells. -/
def integer? (cs : List Char) : Option Int :=
  match Numeral.splitSign cs with
  | (true, cs) => (natural? cs).bind fun n => if n ≤ Nat.pow 2 63 then some (-(n : Int)) else none
  | (false, cs) => (natural? cs).bind fun n => if n < Nat.pow 2 63 then some (n : Int) else none

end ShaderExpr.Text
