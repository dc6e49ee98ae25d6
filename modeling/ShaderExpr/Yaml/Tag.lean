import ShaderExpr.Text.Integer
import ShaderExpr.Yaml.Timestamp

/-!
# Tags of scalars

A tag says what kind of thing a scalar is. A plain scalar without a tag of its own gets one from its
text.
-/

namespace ShaderExpr.Yaml

/-- What kind of thing a scalar is. -/
inductive Tag where
  | null
  | bool
  | int
  | float
  | str
  | timestamp
  | merge
  /-- Any other tag, in its short form. -/
  | other (name : String)
deriving DecidableEq, Repr, Inhabited

namespace Tag

/-- The tag with a short form. -/
def ofShort : String → Tag
  | "!!null" => .null
  | "!!bool" => .bool
  | "!!int" => .int
  | "!!float" => .float
  | "!!str" => .str
  | "!!timestamp" => .timestamp
  | "!!merge" => .merge
  | name => .other name

/-- What the tags of the common kinds start with in their full form. -/
def commonStart : String := "tag:yaml.org,2002:"

/-- The tag with a full form. -/
def ofFull (name : String) : Tag :=
  if name.startsWith commonStart then
    ofShort ("!!" ++ String.ofList (name.toList.drop commonStart.length))
  else ofShort name

/-- Is the tag one for numbers? -/
def isNumber : Tag → Bool
  | .int | .float => true
  | _ => false

/-! ## The tag of a plain scalar -/

/-- Is a text an integer of 64 bits with digits of a base, signed or not? -/
def isBased (base : Nat) (cs : List Char) : Bool :=
  match Numeral.splitSign cs with
  | (true, ds) => (Text.digits? base ds).any (· ≤ Nat.pow 2 63)
  | (false, ds) => (Text.digits? base ds).any (· < if ds.length < cs.length then Nat.pow 2 63 else Nat.pow 2 64)

/-- Is a text an integer of 64 bits, signed or not? Behind a binary or octal start a sign may stand. -/
def isInteger (cs : List Char) : Bool :=
  (Text.integer? cs).isSome || (Text.natural? cs).any (· < Nat.pow 2 64) ||
    match cs with
    | '0' :: 'b' :: cs => isBased 2 cs
    | '0' :: 'o' :: cs => isBased 8 cs
    | _ => false

/-- Is a text digits with an optional point, or a point with digits behind it, and then an optional
power of ten? -/
def isDecimal (cs : List Char) : Bool :=
  let (_, cs) := Numeral.splitSign cs
  let whole := cs.takeWhile Char.isDigit
  let rest := cs.dropWhile Char.isDigit
  let (part, rest) := match rest with
    | '.' :: rest => (rest.takeWhile Char.isDigit, rest.dropWhile Char.isDigit)
    | _ => ([], rest)
  !(whole.isEmpty && part.isEmpty) &&
    match rest with
    | [] => true
    | c :: cs => (c == 'e' || c == 'E') && (Numeral.exponent? cs).isSome

/-- Is a text a number of double precision that is not too large? -/
def isDouble (s : String) : Bool := (Numeral.read .double s).isOk

/-- The tag of a text that starts with a digit or a sign; timestamps only if they are looked for. -/
def ofNumeric (timestamps : Bool) (text : String) : Tag :=
  let plain := text.toList.filter (· != '_')
  if timestamps && isTimestamp text then .timestamp
  else if isInteger plain then .int
  else if isDecimal plain && isDouble (String.ofList plain) then .float
  else .str

/-- The tag that a text gives to a scalar; timestamps only if they are looked for. -/
def ofText (timestamps : Bool) (text : String) : Tag :=
  if ["", "~", "null", "Null", "NULL"].contains text then .null
  else if ["true", "True", "TRUE", "false", "False", "FALSE"].contains text then .bool
  else if [".nan", ".NaN", ".NAN", ".inf", ".Inf", ".INF", "+.inf", "+.Inf", "+.INF", "-.inf",
      "-.Inf", "-.INF"].contains text then .float
  else
    match text.toList.head? with
    | none => .null
    | some c =>
      if c == '.' then (if isDouble text then .float else .str)
      else if c.isDigit || c == '+' || c == '-' then ofNumeric timestamps text
      else .str

/-- The tag of a plain scalar that has none of its own. -/
def ofPlain (text : String) : Tag := if text == "<<" then .merge else ofText true text

/-- Does a text agree with the tag of its scalar? An integer is also a float. -/
def agrees (tag : Tag) (text : String) : Bool :=
  match tag with
  | .str | .merge | .other _ => true
  | .float => (ofText false text).isNumber
  | .timestamp => ofText true text == .timestamp
  | tag => ofText false text == tag

end Tag

end ShaderExpr.Yaml
