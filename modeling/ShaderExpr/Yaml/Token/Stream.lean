import ShaderExpr.Yaml.Token.Property

/-!
# The tokens of a text

Tokens are read from the left. A word may turn out to be a key only when the colon behind it is seen,
on the same line and not too far away; its key token is then put before it. Outside brackets the
indentation of lines opens and closes collections.

A text with an error in it has tokens up to the error. The reader of tokens sees each token only
together with the two after it, so the last two before an error count as lost.
-/

namespace ShaderExpr.Yaml

/-- A place where a key may have started. -/
structure KeyCandidate where
  /-- Must it be a key? A word at the indentation of a block mapping must. -/
  required : Bool
  /-- How many tokens came before it. -/
  token : Nat
  mark : Mark
deriving Repr

/-- The state of reading tokens. -/
structure TokenReader where
  cursor : Cursor
  tokens : Array Token
  /-- One more than the indentation of the innermost block collection, zero if there is none. -/
  level : Nat
  /-- The same for the collections around it, innermost first. -/
  levels : List Nat
  /-- The key that may have started inside the innermost brackets. -/
  key : Option KeyCandidate
  /-- The same for the brackets around them, innermost first; empty outside brackets. -/
  outer : List (Option KeyCandidate)
  /-- May a key start here? -/
  keyAllowed : Bool
deriving Repr

namespace TokenReader

/-- Are we inside brackets? -/
def inFlow (r : TokenReader) : Bool := !r.outer.isEmpty

def mark (r : TokenReader) : Mark := r.cursor.mark

def rest (r : TokenReader) : List Char := r.cursor.rest

/-- Adds a token at the end. -/
def push (r : TokenReader) (kind : TokenKind) (line : Nat) : TokenReader :=
  { r with tokens := r.tokens.push ⟨kind, line⟩ }

/-- Puts a token at an index. -/
def insertAt (r : TokenReader) (i : Nat) (kind : TokenKind) (line : Nat) : TokenReader :=
  { r with tokens := r.tokens.insertIdxIfInBounds i ⟨kind, line⟩ }

/-! ## Between tokens -/

/-- What is being passed between two tokens. -/
inductive GapMode where
  | space
  /-- Inside a comment. -/
  | comment
  /-- Between two comments. -/
  | between
deriving DecidableEq, Repr

/-- Do only blanks and line breaks come before the next comment? -/
def commentFollows (cs : List Char) : Bool :=
  (cs.dropWhile fun c => isBlank c || isBreak c).head? == some '#'

/-- Passes blanks, comments and line breaks. A tab is a blank only where no key may start, or inside
brackets, or before a comment that follows a comment. A key may start after a line break outside
brackets. -/
def passGap (flow : Bool) (mode : GapMode) (allowed : Bool) (mark : Mark) :
    List Char → Bool × Cursor
  | [] => (allowed, ⟨mark, []⟩)
  | c :: cs =>
    match mode with
    | .comment =>
      if !isBreak c then passGap flow .comment allowed (mark.next c) cs
      else if commentFollows cs then passGap flow .between allowed (mark.next c) cs
      else passGap flow .space (allowed || !flow) (mark.next c) cs
    | .between =>
      if c == '#' then passGap flow .comment allowed (mark.next c) cs
      else passGap flow .between allowed (mark.next c) cs
    | .space =>
      if c == byteOrderMark && mark.column == 0 then passGap flow .space allowed (mark.next c) cs
      else if c == ' ' || (c == '\t' && (flow || !allowed)) then
        passGap flow .space allowed (mark.next c) cs
      else if c == '#' then passGap flow .comment allowed (mark.next c) cs
      else if isBreak c then passGap flow .space (allowed || !flow) (mark.next c) cs
      else (allowed, ⟨mark, c :: cs⟩)

/-- Passes what stands before the next token. -/
def toNext (r : TokenReader) : TokenReader :=
  let (allowed, cursor) := passGap r.inFlow .space r.keyAllowed r.mark r.rest
  { r with cursor := cursor, keyAllowed := allowed }

/-- Passes blanks and a comment on the same line. -/
def passLineComment (r : TokenReader) : TokenReader :=
  let c := r.cursor.dropWhile isBlank
  if c.rest.head? == some '#' then { r with cursor := c.dropWhile (!isBreak ·) } else r

/-! ## Keys and indentation -/

/-- Gives up the key that may have started; it is an error if it had to be one. -/
def dropKey (r : TokenReader) : Option TokenReader :=
  match r.key with
  | some k => if k.required then none else some { r with key := none }
  | none => some r

/-- Notes that a key may start here. -/
def noteKey (r : TokenReader) : Option TokenReader :=
  if r.keyAllowed then do
    let required := !r.inFlow && r.level == r.mark.column + 1
    let r ← r.dropKey
    return { r with key := some ⟨required, r.tokens.size, r.mark⟩ }
  else some r

/-- The longest distance between a key and its colon. -/
def keyReach : Nat := 1024

/-- The key that a colon here belongs to: it started on this line and not too far away. -/
def foundKey (r : TokenReader) : Option (Option KeyCandidate) :=
  match r.key with
  | none => some none
  | some k =>
    if k.mark.line < r.mark.line || k.mark.index + keyReach < r.mark.index then
      if k.required then none else some none
    else some (some k)

/-- Opens a block collection at a column, if it is further right than the innermost one. Its token goes
to an index, or to the end. -/
def openBlock (r : TokenReader) (column : Nat) (index : Option Nat) (kind : TokenKind) (line : Nat) :
    TokenReader :=
  if !r.inFlow && r.level ≤ column then
    let r := { r with levels := r.level :: r.levels, level := column + 1 }
    match index with
    | some i => r.insertAt i kind line
    | none => r.push kind line
  else r

/-- Closes the block collections whose level is above a bound; `around` are the levels around the
innermost. -/
def closeAbove (bound : Nat) (level line : Nat) (tokens : Array Token) :
    List Nat → Nat × List Nat × Array Token
  | [] => (level, [], tokens)
  | outer :: around =>
    if bound < level then closeAbove bound outer line (tokens.push ⟨.blockEnd, line⟩) around
    else (level, outer :: around, tokens)

/-- Closes the block collections whose level is above a bound, with tokens on a line; inside brackets
none is closed. -/
def closeBlocks (r : TokenReader) (bound line : Nat) : TokenReader :=
  if r.inFlow then r
  else
    let (level, levels, tokens) := closeAbove bound r.level line r.tokens r.levels
    { r with level := level, levels := levels, tokens := tokens }

/-! ## Single tokens -/

/-- Passes `n` characters and adds a token for them. -/
def indicator (r : TokenReader) (n : Nat) (kind : TokenKind) : TokenReader :=
  { r with cursor := r.cursor.drop n }.push kind r.mark.line

def documentIndicator (r : TokenReader) (kind : TokenKind) : Option TokenReader := do
  let r ← (r.closeBlocks 0 r.mark.line).dropKey
  return { r with keyAllowed := false }.indicator 3 kind

def readDirective (r : TokenReader) : Option TokenReader := do
  let r ← (r.closeBlocks 0 r.mark.line).dropKey
  let (kind, cursor) ← directive? (r.cursor.drop 1)
  return { r with cursor := cursor, keyAllowed := false }.push kind r.mark.line

def openBrackets (r : TokenReader) (kind : TokenKind) : Option TokenReader := do
  let r ← r.noteKey
  return { r with outer := r.key :: r.outer, key := none, keyAllowed := true }.indicator 1 kind

def closeBrackets (r : TokenReader) (kind : TokenKind) : Option TokenReader := do
  let r ← r.dropKey
  let r := match r.outer with
    | k :: outer => { r with key := k, outer := outer }
    | [] => r
  return { r with keyAllowed := false }.indicator 1 kind

def readFlowEntry (r : TokenReader) : Option TokenReader := do
  let r ← r.dropKey
  return { r with keyAllowed := true }.indicator 1 .flowEntry

def readBlockEntry (r : TokenReader) : Option TokenReader := do
  if !r.inFlow && !r.keyAllowed then none
  let r := r.openBlock r.mark.column none .blockSequenceStart r.mark.line
  let r ← r.dropKey
  return { r with keyAllowed := true }.indicator 1 .blockEntry

def readKey (r : TokenReader) : Option TokenReader := do
  if !r.inFlow && !r.keyAllowed then none
  let r := r.openBlock r.mark.column none .blockMappingStart r.mark.line
  let r ← r.dropKey
  return { r with keyAllowed := !r.inFlow }.indicator 1 .key

def readValue (r : TokenReader) : Option TokenReader := do
  match ← r.foundKey with
  | some k =>
    let r := r.insertAt k.token .key k.mark.line
    let r := r.openBlock k.mark.column (some k.token) .blockMappingStart k.mark.line
    return { r with key := none, keyAllowed := false }.indicator 1 .value
  | none =>
    if !r.inFlow && !r.keyAllowed then none
    let r := r.openBlock r.mark.column none .blockMappingStart r.mark.line
    return { r with key := none, keyAllowed := !r.inFlow }.indicator 1 .value

/-- Reads an anchor or an alias. -/
def readAnchor (r : TokenReader) (kind : String → TokenKind) : Option TokenReader := do
  let r ← r.noteKey
  let (name, cursor) ← anchorName? (r.cursor.drop 1)
  return { r with cursor := cursor, keyAllowed := false }.push (kind name) r.mark.line

def readTag (r : TokenReader) : Option TokenReader := do
  let r ← r.noteKey
  let (handle, suffix, cursor) ← tag? r.cursor
  return { r with cursor := cursor, keyAllowed := false }.push (.tag handle suffix) r.mark.line

def readBlockScalar (r : TokenReader) (literal : Bool) : Option TokenReader := do
  let r ← r.dropKey
  let s ← blockScalar literal r.level (r.cursor.drop 1)
  return { r with cursor := s.cursor, keyAllowed := true }.push (.scalar s.text false) r.mark.line

def readQuoted (r : TokenReader) (double : Bool) : Option TokenReader := do
  let r ← r.noteKey
  let c := r.cursor.drop 1
  let s ← if double then doubleQuoted [] .empty .text c.mark c.rest
    else singleQuoted [] .empty c.mark c.rest
  return { r with cursor := s.cursor, keyAllowed := false }.push (.scalar s.text false) r.mark.line

/-- Reads a plain scalar, and says whether line breaks were passed behind it. -/
def readPlain (r : TokenReader) : Option (TokenReader × Bool) := do
  let r ← r.noteKey
  let s ← plain r.inFlow r.level [] .empty false r.mark r.rest
  let r := { r with cursor := s.cursor, keyAllowed := s.broken }.push (.scalar s.text true) r.mark.line
  return (r, s.broken)

/-- Characters with a meaning of their own, with which no plain scalar starts. -/
def isIndicator (c : Char) : Bool :=
  "-?:,[]#&*!|>'\"%@".toList.contains c || c == '\x7b' || c == '\x7d' || c.toNat == 0x60

/-- May a plain scalar start here? -/
def startsPlain (flow : Bool) : List Char → Bool
  | [] => false
  | c :: cs =>
    (!isBlank c && !isBreak c && !isIndicator c) ||
      (c == '-' && !cs.head?.any isBlank) ||
      (!flow && (c == '?' || c == ':') && !atGap cs)

/-- The end of the text: all block collections are closed. -/
def readEnd (r : TokenReader) : Option TokenReader := do
  let m := r.mark
  let line := if m.column = 0 then m.line else m.line + 1
  let r ← { r with cursor := ⟨⟨m.index, line, 0⟩, []⟩ }.closeBlocks 0 line |>.dropKey
  return { r with keyAllowed := false }.push .streamEnd line

/-- Reads the token that starts here, without a comment behind it. -/
def readToken (r : TokenReader) : Option TokenReader :=
  match r.rest with
  | [] => none
  | c :: cs =>
    let lineStart := r.mark.column == 0
    if lineStart && c == '%' then r.readDirective.map passLineComment
    else if lineStart && atSeparator r.rest then
      (r.documentIndicator (if c == '-' then .documentStart else .documentEnd)).map passLineComment
    else if c == '[' then (r.openBrackets .flowSequenceStart).map passLineComment
    else if c == '\x7b' then (r.openBrackets .flowMappingStart).map passLineComment
    else if c == ']' then (r.closeBrackets .flowSequenceEnd).map passLineComment
    else if c == '\x7d' then (r.closeBrackets .flowMappingEnd).map passLineComment
    else if c == ',' then r.readFlowEntry.map passLineComment
    else if c == '-' && atGap cs then r.readBlockEntry
    else if c == '?' && (r.inFlow || atGap cs) then r.readKey.map passLineComment
    else if c == ':' && (r.inFlow || atGap cs) then r.readValue.map passLineComment
    else if c == '*' then (r.readAnchor .alias).map passLineComment
    else if c == '&' then (r.readAnchor .anchor).map passLineComment
    else if c == '!' then r.readTag.map passLineComment
    else if c == '|' && !r.inFlow then r.readBlockScalar true
    else if c == '>' && !r.inFlow then r.readBlockScalar false
    else if c == '\'' then (r.readQuoted false).map passLineComment
    else if c == '"' then (r.readQuoted true).map passLineComment
    else if startsPlain r.inFlow r.rest then
      r.readPlain.map fun (r, broken) => if broken then r else r.passLineComment
    else none

/-- Tokens up to the end or the first error. A collection that the next line closes ends where the token
before it ended. Each token takes at least one character, so `fuel` beyond
the length of the text is never used up. -/
def readAll : Nat → TokenReader → List Token
  | 0, _ => []
  | fuel + 1, r =>
    let line := r.mark.line
    let r := r.toNext
    let r := r.closeBlocks (r.mark.column + 1) line
    let lost := r.tokens.toList.take (r.tokens.size - 2)
    if r.rest.isEmpty then
      match r.readEnd with
      | some r => r.tokens.toList
      | none => lost
    else
      match r.readToken with
      | some r => readAll fuel r
      | none => lost

/-- The start of a text. -/
def start (cs : List Char) : TokenReader :=
  ⟨⟨.start, cs⟩, #[], 0, [], none, [], true⟩

end TokenReader

/-- The tokens of a text, up to the first error if there is one. A text with a character that no text
may hold has none. -/
def tokens (text : String) : List Token :=
  let cs := text.toList
  if cs.all isAllowed then
    let cs := uniformBreaks (if cs.head? == some byteOrderMark then cs.drop 1 else cs)
    TokenReader.readAll (cs.length + 2) (.start cs)
  else []

end ShaderExpr.Yaml
