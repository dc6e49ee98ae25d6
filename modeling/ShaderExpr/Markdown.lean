import ShaderExpr.Markdown.Inline
import ShaderExpr.Text.Lines

/-!
# Markdown documents

The headings and the fenced blocks of a document, in order. Headings start with number signs or are
underlined; a fence is a line of backticks or tildes, and ends at a line with at least as many of them
or with the document. Indented code and paragraphs are passed over.
-/

namespace ShaderExpr.Markdown

/-- A heading or a fenced block. -/
inductive Event where
  /-- The line of a heading and its text. -/
  | heading (line : Nat) (text : String)
  /-- The first line inside a fence, the language of the fence and what is inside. -/
  | fence (line : Nat) (language content : String)
deriving DecidableEq, Repr

/-- The start of a fenced block. -/
structure Fence where
  mark : Char
  length : Nat
  /-- How far it is indented; what is inside loses as much. -/
  indent : Nat
  language : String
deriving Repr

/-- Where a line finds itself. -/
inductive State where
  | between
  /-- In a paragraph that started on a line; the lines so far, last first. -/
  | paragraph (line : Nat) (lines : List (List Char))
  /-- In a fenced block that started on a line; the lines so far, last first. -/
  | fenced (line : Nat) (f : Fence) (lines : List (List Char))
deriving Repr

/-- The width of the indentation of a line, and what is behind it; a tab goes to the next multiple of
four. -/
def indentation (width : Nat) : List Char → Nat × List Char
  | ' ' :: cs => indentation (width + 1) cs
  | '\t' :: cs => indentation (width + (4 - width % 4)) cs
  | cs => (width, cs)

def isBlankLine (line : List Char) : Bool := line.all isSpace

def trimRight (cs : List Char) : List Char := (cs.reverse.dropWhile isSpace).reverse

def trimBoth (cs : List Char) : List Char := trimRight (cs.dropWhile isSpace)

/-- A heading without the number signs that close it: they stand alone behind a blank, or there is
nothing else. -/
def dropClosing (cs : List Char) : List Char :=
  let rest := (cs.reverse.dropWhile (· == '#')).reverse
  if rest.isEmpty || (rest.length < cs.length && rest.getLast?.any isSpace) then rest else cs

/-- The text of a heading that starts with one to six number signs. -/
def numberedHeading? (cs : List Char) : Option String :=
  let level := (cs.takeWhile (· == '#')).length
  let rest := cs.dropWhile (· == '#')
  if level = 0 || 6 < level || !(rest.isEmpty || rest.head?.any isSpace) then none
  else some (inlineText (dropClosing (trimBoth rest)))

/-- Is a line an underline of a heading? -/
def isUnderline (cs : List Char) : Bool :=
  let cs := trimRight cs
  !cs.isEmpty && (cs.all (· == '=') || cs.all (· == '-'))

/-- Is a line a break between parts: at least three stars, hyphens or underscores, with blanks
between? -/
def isRule (cs : List Char) : Bool :=
  let marks := cs.filter (!isSpace ·)
  3 ≤ marks.length && (marks.all (· == '*') || marks.all (· == '-') || marks.all (· == '_'))

/-- The fence that starts with a line. Behind backticks no further backtick may stand. -/
def fence? (indent : Nat) (cs : List Char) : Option Fence :=
  match cs with
  | [] => none
  | c :: _ =>
    let length := (cs.takeWhile (· == c)).length
    let info := trimBoth (cs.dropWhile (· == c))
    let isTick := c.toNat == 0x60
    if !(isTick || c == '~') || length < 3 || (isTick && info.any (·.toNat == 0x60)) then none
    else some ⟨c, length, indent, String.ofList (info.takeWhile (· != ' '))⟩

/-- Does a line end a fenced block? -/
def Fence.endsAt (f : Fence) (line : List Char) : Bool :=
  let (width, cs) := indentation 0 line
  width < 4 && f.length ≤ (cs.takeWhile (· == f.mark)).length &&
    isBlankLine (cs.dropWhile (· == f.mark))

/-- What a line loses of its indentation up to a width; blanks of a tab beyond it stay. There is none if
the line is indented less. -/
def unindent? (width column : Nat) : List Char → Option (List Char)
  | ' ' :: cs => if column < width then unindent? width (column + 1) cs else some (' ' :: cs)
  | '\t' :: cs =>
    if column < width then unindent? width (column + (4 - column % 4)) cs else some ('\t' :: cs)
  | cs => if width ≤ column then some (List.replicate (column - width) ' ' ++ cs) else none

/-- A line inside a fenced block. -/
def Fence.inside (f : Fence) (line : List Char) : List Char :=
  match unindent? f.indent 0 line with
  | some cs => cs
  | none =>
    match (indentation 0 line).2 with
    | [] => line
    | cs => cs

/-- The event of a fenced block. A block without lines counts as on the first line. -/
def fenceEvent (line : Nat) (f : Fence) (lines : List (List Char)) : Event :=
  .fence (if lines.isEmpty then 1 else line + 1) f.language
    (String.ofList (lines.reverse.flatMap (· ++ ['\n'])))

/-- The event of an underlined heading. -/
def underlinedHeading (line : Nat) (lines : List (List Char)) : Event :=
  .heading line (inlineText (trimRight (['\n'].intercalate lines.reverse)))

/-- A line that may start something new, outside of fenced blocks. -/
def openLine (number : Nat) (line : List Char) (state : State) : State × List Event :=
  let (indent, cs) := indentation 0 line
  let text := line.dropWhile isSpace
  let onward := match state with
    | .paragraph start lines => State.paragraph start (text :: lines)
    | _ => if 3 < indent then .between else .paragraph number [text]
  if 3 < indent then (onward, [])
  else if isRule cs then (.between, [])
  else
    match numberedHeading? cs with
    | some text => (.between, [.heading number text])
    | none =>
      match fence? indent cs with
      | some f => (.fenced number f [], [])
      | none => (onward, [])

/-- Reads a line with its number. -/
def readLine (number : Nat) (line : List Char) (state : State) : State × List Event :=
  match state with
  | .fenced start f lines =>
    if f.endsAt line then (.between, [fenceEvent start f lines])
    else (.fenced start f (f.inside line :: lines), [])
  | .paragraph start lines =>
    let (indent, cs) := indentation 0 line
    if isBlankLine line then (.between, [])
    else if indent < 4 && isUnderline cs then (.between, [underlinedHeading start lines])
    else openLine number line state
  | .between => if isBlankLine line then (.between, []) else openLine number line state

/-- The events of lines, the first with a number. -/
def eventsFrom (number : Nat) (state : State) : List (List Char) → List Event
  | [] =>
    match state with
    | .fenced start f lines => [fenceEvent start f lines]
    | _ => []
  | line :: rest =>
    let (state, events) := readLine number line state
    events ++ eventsFrom (number + 1) state rest

/-- The headings and the fenced blocks of a document. -/
def events (text : String) : List Event := eventsFrom 1 .between (Text.linesFrom [] text.toList)

end ShaderExpr.Markdown
