/-!
# Timestamps

A timestamp is a date, alone or with a time of day: year, month and day with hyphens between them,
the year with four digits and the others with one or two. The time follows a letter `T` in either
case, with a zone behind it, or blanks, without a zone. Only whether a text is one matters here.
-/

namespace ShaderExpr.Yaml

namespace Timestamp

/-- A number of one or two digits, and what is left. -/
def number? : List Char → Option (Nat × List Char)
  | a :: b :: cs =>
    if !a.isDigit then none
    else if b.isDigit then some ((a.toNat - 48) * 10 + (b.toNat - 48), cs)
    else some (a.toNat - 48, b :: cs)
  | [a] => if a.isDigit then some (a.toNat - 48, []) else none
  | [] => none

/-- A number below a bound, and what is left. -/
def below? (bound : Nat) (cs : List Char) : Option (Nat × List Char) := do
  let (n, cs) ← number? cs
  if n < bound then some (n, cs) else none

/-- What is left behind a character. -/
def pass? (c : Char) : List Char → Option (List Char)
  | d :: cs => if d == c then some cs else none
  | [] => none

/-- Does a year have a day more in February? -/
def isLeap (year : Nat) : Bool := year % 4 == 0 && (year % 100 != 0 || year % 400 == 0)

def daysIn (year month : Nat) : Nat :=
  if month = 2 then (if isLeap year then 29 else 28)
  else if month = 4 || month = 6 || month = 9 || month = 11 then 30
  else 31

/-- What is left behind a date. -/
def date? (cs : List Char) : Option (List Char) := do
  let digits := cs.takeWhile Char.isDigit
  if digits.length ≠ 4 then none
  let year := digits.foldl (fun n c => n * 10 + (c.toNat - 48)) 0
  let cs ← pass? '-' (cs.drop 4)
  let (month, cs) ← number? cs
  if month = 0 || 12 < month then none
  let cs ← pass? '-' cs
  let (day, cs) ← number? cs
  if day = 0 || daysIn year month < day then none else some cs

/-- Passes a point or a comma with the digits behind it, if there are any. -/
def passFraction : List Char → List Char
  | c :: d :: cs =>
    if (c == '.' || c == ',') && d.isDigit then cs.dropWhile Char.isDigit else c :: d :: cs
  | cs => cs

/-- What is left behind a time of day. -/
def clock? (cs : List Char) : Option (List Char) := do
  let (_, cs) ← below? 24 cs
  let cs ← pass? ':' cs
  let (_, cs) ← below? 60 cs
  let cs ← pass? ':' cs
  let (_, cs) ← below? 60 cs
  some (passFraction cs)

/-- Is a text a time zone: the letter `Z`, or a sign with hours and minutes? -/
def isZone : List Char → Bool
  | ['Z'] => true
  | [sign, a, b, ':', c, d] =>
    (sign == '+' || sign == '-') && [a, b, c, d].all Char.isDigit &&
      (number? [a, b]).any (·.1 ≤ 24) && (number? [c, d]).any (·.1 ≤ 60)
  | _ => false

end Timestamp

/-- Is a text a timestamp? -/
def isTimestamp (text : String) : Bool :=
  match Timestamp.date? text.toList with
  | none => false
  | some [] => true
  | some (c :: cs) =>
    if c == 'T' || c == 't' then (Timestamp.clock? cs).any Timestamp.isZone
    else c == ' ' && (Timestamp.clock? (cs.dropWhile (· == ' '))).any List.isEmpty

end ShaderExpr.Yaml
