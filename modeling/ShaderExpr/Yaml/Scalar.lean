import ShaderExpr.Yaml.Mark

/-!
# Scalars of YAML text

How the text of a scalar is read: plain scalars, quoted scalars and block scalars. Line breaks inside
plain and quoted scalars are folded: one becomes a space, further ones stay. Each function walks over
the remaining characters and returns what is left behind the scalar.
-/

namespace ShaderExpr.Yaml

/-- A scalar that was read. -/
structure ScalarText where
  text : String
  /-- What is left behind it. -/
  cursor : Cursor
  /-- Were line breaks passed behind its last character? -/
  broken : Bool
deriving Repr

/-! ## Gaps and folding -/

/-- Blanks and line breaks between two words of a scalar. -/
structure Gap where
  /-- Blanks, if there was no line break; last first. -/
  blanks : List Char
  /-- Was there a line break? -/
  broken : Bool
  /-- The first line break, unless it was escaped. -/
  first : Option Char
  /-- The line breaks after it; last first. -/
  more : List Char
deriving Repr, Inhabited

namespace Gap

def empty : Gap := ⟨[], false, none, []⟩

/-- A line break that leaves no trace. -/
def escaped : Gap := ⟨[], true, none, []⟩

/-- Passes a blank. Blanks after a line break are indentation. -/
def blank (g : Gap) (c : Char) : Gap := if g.broken then g else { g with blanks := c :: g.blanks }

/-- Passes a line break. Blanks before the first one are dropped. -/
def lineBreak (g : Gap) (c : Char) : Gap :=
  if g.broken then { g with more := c :: g.more } else ⟨[], true, some c, []⟩

/-- What a gap stands for. -/
def folded (g : Gap) : List Char :=
  if g.broken then
    match g.first with
    | some '\n' => if g.more.isEmpty then [' '] else g.more.reverse
    | some c => c :: g.more.reverse
    | none => g.more.reverse
  else g.blanks.reverse

/-- Adds what a gap stands for to a text that is kept last character first. -/
def flush (g : Gap) (text : List Char) : List Char := g.folded.reverse ++ text

end Gap

/-! ## Plain scalars -/

/-- Does a plain scalar end before these characters? A colon at the end of a word ends it, and inside
brackets so do the characters that structure them. -/
def endsPlain (flow : Bool) : List Char → Bool
  | ':' :: cs => atGap cs
  | c :: _ => flow && (c == ',' || c == '?' || c == '[' || c == ']' || c == '\x7b' || c == '\x7d')
  | [] => true

/-- Reads a plain scalar. Outside brackets its further lines must be indented at least by `indent`.
`afterGap` says that blanks or line breaks were just passed. -/
def plain (flow : Bool) (indent : Nat) (text : List Char) (gap : Gap) (afterGap : Bool) (mark : Mark) :
    List Char → Option ScalarText
  | [] => some ⟨String.ofList text.reverse, ⟨mark, []⟩, gap.broken⟩
  | c :: cs =>
    if isBlank c then
      if gap.broken && mark.column < indent && c == '\t' then none
      else plain flow indent text (gap.blank c) true (mark.next c) cs
    else if isBreak c then plain flow indent text (gap.lineBreak c) true (mark.next c) cs
    else if afterGap && ((!flow && mark.column < indent) || c == '#' ||
        (mark.column == 0 && atSeparator (c :: cs))) then
      some ⟨String.ofList text.reverse, ⟨mark, c :: cs⟩, gap.broken⟩
    else if endsPlain flow (c :: cs) then
      some ⟨String.ofList text.reverse, ⟨mark, c :: cs⟩, gap.broken⟩
    else plain flow indent (c :: gap.flush text) .empty false (mark.next c) cs

/-! ## Quoted scalars -/

/-- Reads a scalar in single quotes, after the first quote. A doubled quote stands for one. -/
def singleQuoted (text : List Char) (gap : Gap) (mark : Mark) : List Char → Option ScalarText
  | [] => none
  | '\'' :: '\'' :: cs =>
    singleQuoted ('\'' :: gap.flush text) .empty ((mark.next '\'').next '\'') cs
  | c :: cs =>
    if c == '\'' then
      some ⟨String.ofList (gap.flush text).reverse, ⟨mark.next c, cs⟩, false⟩
    else if isBlank c then singleQuoted text (gap.blank c) (mark.next c) cs
    else if isBreak c then singleQuoted text (gap.lineBreak c) (mark.next c) cs
    else if mark.column == 0 && atSeparator (c :: cs) then none
    else singleQuoted (c :: gap.flush text) .empty (mark.next c) cs

/-- The character that a letter after a backslash stands for. -/
def escape? : Char → Option Char
  | '0' => some '\x00'
  | 'a' => some '\x07'
  | 'b' => some '\x08'
  | 't' | '\t' => some '\t'
  | 'n' => some '\n'
  | 'v' => some '\x0b'
  | 'f' => some '\x0c'
  | 'r' => some '\r'
  | 'e' => some '\x1b'
  | ' ' => some ' '
  | '"' => some '"'
  | '\'' => some '\''
  | '\\' => some '\\'
  | 'N' => some '\u0085'
  | '_' => some '\u00a0'
  | 'L' => some '\u2028'
  | 'P' => some '\u2029'
  | _ => none

/-- How many hexadecimal digits follow a letter after a backslash. -/
def escapeLength? : Char → Option Nat
  | 'x' => some 2
  | 'u' => some 4
  | 'U' => some 8
  | _ => none

/-- The value of a hexadecimal digit. -/
def hexDigit? (c : Char) : Option Nat :=
  if '0' ≤ c && c ≤ '9' then some (c.toNat - 48)
  else if 'a' ≤ c && c ≤ 'f' then some (c.toNat - 87)
  else if 'A' ≤ c && c ≤ 'F' then some (c.toNat - 55)
  else none

/-- The character with a code, if there is one. -/
def charOfCode? (n : Nat) : Option Char := if n.isValidChar then some (Char.ofNat n) else none

/-- Where a reader of a scalar in double quotes is. -/
inductive QuoteMode where
  | text
  /-- After a backslash. -/
  | escape
  /-- Inside a character code: digits to come, value so far. -/
  | code (digits value : Nat)
deriving Repr

/-- Reads a scalar in double quotes, after the first quote. -/
def doubleQuoted (text : List Char) (gap : Gap) (mode : QuoteMode) (mark : Mark) :
    List Char → Option ScalarText
  | [] => none
  | c :: cs =>
    match mode with
    | .text =>
      if c == '"' then some ⟨String.ofList (gap.flush text).reverse, ⟨mark.next c, cs⟩, false⟩
      else if isBlank c then doubleQuoted text (gap.blank c) .text (mark.next c) cs
      else if isBreak c then doubleQuoted text (gap.lineBreak c) .text (mark.next c) cs
      else if mark.column == 0 && atSeparator (c :: cs) then none
      else if c == '\\' then doubleQuoted (gap.flush text) .empty .escape (mark.next c) cs
      else doubleQuoted (c :: gap.flush text) .empty .text (mark.next c) cs
    | .escape =>
      if isBreak c then doubleQuoted text .escaped .text (mark.next c) cs
      else match escapeLength? c with
        | some n => doubleQuoted text .empty (.code n 0) (mark.next c) cs
        | none =>
          match escape? c with
          | some e => doubleQuoted (e :: text) .empty .text (mark.next c) cs
          | none => none
    | .code digits value =>
      match hexDigit? c with
      | none => none
      | some d =>
        let value := value * 16 + d
        if digits ≤ 1 then
          match charOfCode? value with
          | some e => doubleQuoted (e :: text) .empty .text (mark.next c) cs
          | none => none
        else doubleQuoted text .empty (.code (digits - 1) value) (mark.next c) cs

/-! ## Block scalars -/

/-- What becomes of the line breaks at the end of a block scalar. -/
inductive Chomping where
  /-- None stays. -/
  | strip
  /-- One stays. -/
  | clip
  /-- All stay. -/
  | keep
deriving DecidableEq, Repr

/-- A block scalar under way. -/
structure BlockText where
  /-- Are line breaks kept, not folded? -/
  literal : Bool
  chomping : Chomping
  /-- The least indentation that the content may have. -/
  least : Nat
  /-- The indentation of the content, once it is known. -/
  indent : Option Nat
  /-- The widest indentation so far. -/
  widest : Nat
  /-- The text so far, last character first. -/
  text : List Char
  /-- The line break after the last line of content. -/
  first : List Char
  /-- The line breaks of the empty lines after it, last first. -/
  more : List Char
  /-- Did the last line of content start with a blank? -/
  blankStart : Bool
  /-- Is the current line content? -/
  inLine : Bool
deriving Repr

namespace BlockText

/-- The text at the end. -/
def finish (b : BlockText) : String :=
  let text := if b.chomping = .strip then b.text else b.first.reverse ++ b.text
  let text := if b.chomping = .keep then b.more ++ text else text
  String.ofList text.reverse

/-- Is a column still inside the indentation? -/
def inIndentation (b : BlockText) (column : Nat) : Bool :=
  match b.indent with
  | none => true
  | some n => column < n

/-- The indentation of the content, now that a line of content has come. -/
def settle (b : BlockText) : Nat := b.indent.getD (max (max b.widest b.least) 1)

/-- Starts a line of content with its first character. Where two lines that start with no blank meet,
folding makes their line break a space, or drops it if empty lines follow. -/
def startLine (b : BlockText) (c : Char) : BlockText :=
  let fold := !b.literal && !b.blankStart && !isBlank c && b.first == ['\n']
  let joint := if fold then (if b.more.isEmpty then [' '] else []) else b.first
  { b with text := c :: (b.more ++ joint ++ b.text), first := [], more := [],
           blankStart := isBlank c, inLine := true }

end BlockText

/-- Reads the lines of a block scalar. -/
def blockLines (b : BlockText) (mark : Mark) : List Char → Option ScalarText
  | [] => some ⟨b.finish, ⟨mark, []⟩, true⟩
  | c :: cs =>
    if b.inLine then
      if isBreak c then blockLines { b with first := [c], inLine := false } (mark.next c) cs
      else blockLines { b with text := c :: b.text } (mark.next c) cs
    else if b.inIndentation mark.column && c == ' ' then
      blockLines { b with widest := max b.widest (mark.column + 1) } (mark.next c) cs
    else if b.inIndentation mark.column && c == '\t' then none
    else if isBreak c then blockLines { b with more := c :: b.more } (mark.next c) cs
    else
      let indent := b.settle
      if mark.column = indent then
        blockLines ({ b with indent := some indent }.startLine c) (mark.next c) cs
      else some ⟨b.finish, ⟨mark, c :: cs⟩, true⟩

/-- A sign for chomping. -/
def chomping? : Char → Option Chomping
  | '+' => some .keep
  | '-' => some .strip
  | _ => none

/-- Chomping and indentation after the sign of a block scalar, in either order, each at most once. An
indentation is a digit other than zero. -/
def blockHeader (cs : List Char) : Option (Chomping × Option Nat × List Char) :=
  match cs with
  | [] => some (.clip, none, [])
  | c :: rest =>
    match chomping? c with
    | some ch =>
      match rest with
      | d :: rest' =>
        if d == '0' then none
        else if d.isDigit then some (ch, some (d.toNat - 48), rest')
        else some (ch, none, rest)
      | [] => some (ch, none, [])
    | none =>
      if c == '0' then none
      else if c.isDigit then
        match rest with
        | d :: rest' =>
          match chomping? d with
          | some ch => some (ch, some (c.toNat - 48), rest')
          | none => some (.clip, some (c.toNat - 48), rest)
        | [] => some (.clip, some (c.toNat - 48), [])
      else some (.clip, none, cs)

/-- Passes blanks and a comment to the end of the line, and the line break. -/
def lineRemainder? (c : Cursor) : Option Cursor :=
  let c := c.dropWhile isBlank
  let c := if c.rest.head? == some '#' then c.dropWhile (!isBreak ·) else c
  if atLineEnd c.rest then some (c.drop 1) else none

/-- Reads a block scalar after its sign. `level` is one more than the indentation of the block around
it, zero if there is none. -/
def blockScalar (literal : Bool) (level : Nat) (c : Cursor) : Option ScalarText := do
  let (chomping, increment, rest) ← blockHeader c.rest
  let c ← lineRemainder? (c.drop (c.rest.length - rest.length))
  let indent := increment.map fun n => level - 1 + n
  blockLines ⟨literal, chomping, level, indent, 0, [], [], [], false, false⟩ c.mark c.rest

end ShaderExpr.Yaml
