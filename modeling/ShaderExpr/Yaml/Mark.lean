/-!
# Characters and marks of YAML text

The text is read after its line breaks are made uniform: a carriage return, alone or before a line
feed, and a next-line character become a line feed; the two Unicode separators stay what they are. A
mark is a place in the text.
-/

namespace ShaderExpr.Yaml

/-- May a character stand in a text at all? -/
def isAllowed (c : Char) : Bool :=
  let n := c.toNat
  n == 0x09 || n == 0x0a || n == 0x0d || (0x20 ≤ n && n ≤ 0x7e) || n == 0x85 ||
    (0xa0 ≤ n && n ≤ 0xd7ff) || (0xe000 ≤ n && n ≤ 0xfffd) || 0x10000 ≤ n

/-- The mark that may stand at the start of a text or of a line and is no part of it. -/
def byteOrderMark : Char := '\ufeff'

/-- Makes line breaks uniform. -/
def uniformBreaks : List Char → List Char
  | [] => []
  | '\r' :: '\n' :: cs => '\n' :: uniformBreaks cs
  | c :: cs => (if c == '\r' || c.toNat == 0x85 then '\n' else c) :: uniformBreaks cs

def isBlank (c : Char) : Bool := c == ' ' || c == '\t'

def isBreak (c : Char) : Bool := c == '\n' || c == '\u2028' || c == '\u2029'

/-- Letters, digits, the underscore and the hyphen, all of them ASCII. -/
def isWordChar (c : Char) : Bool := c.isAlphanum || c == '_' || c == '-'

/-- A blank, a line break or the end of the text comes next. -/
def atGap : List Char → Bool
  | [] => true
  | c :: _ => isBlank c || isBreak c

/-- A line break or the end of the text comes next. -/
def atLineEnd : List Char → Bool
  | [] => true
  | c :: _ => isBreak c

/-- Three hyphens or three points, alone as a word. At the start of a line they separate documents. -/
def atSeparator : List Char → Bool
  | '-' :: '-' :: '-' :: cs => atGap cs
  | '.' :: '.' :: '.' :: cs => atGap cs
  | _ => false

/-- A place in a text; lines and columns count from zero. -/
structure Mark where
  index : Nat
  line : Nat
  column : Nat
deriving DecidableEq, Repr, Inhabited

namespace Mark

def start : Mark := ⟨0, 0, 0⟩

/-- The place after a character. -/
def next (m : Mark) (c : Char) : Mark :=
  if isBreak c then ⟨m.index + 1, m.line + 1, 0⟩ else ⟨m.index + 1, m.line, m.column + 1⟩

/-- The place after characters. -/
def after (m : Mark) (cs : List Char) : Mark := cs.foldl next m

end Mark

/-- The rest of a text and its place. -/
structure Cursor where
  mark : Mark
  rest : List Char
deriving Repr, Inhabited

namespace Cursor

/-- Passes a number of characters. -/
def drop (c : Cursor) (n : Nat) : Cursor := ⟨c.mark.after (c.rest.take n), c.rest.drop n⟩

/-- Passes characters as long as they are of a class. -/
def dropWhile (c : Cursor) (p : Char → Bool) : Cursor :=
  ⟨c.mark.after (c.rest.takeWhile p), c.rest.dropWhile p⟩

end Cursor

end ShaderExpr.Yaml
