/-!
# Inline text

The text of a heading without the marks of emphasis and code. A backslash before a character takes its
meaning from it and stays; text at the end of a line loses the blanks behind it; lines follow each other
without anything between them.
-/

namespace ShaderExpr.Markdown

/-- Blanks, tabs and line ends. -/
def isSpace (c : Char) : Bool := c == ' ' || (0x09 ≤ c.toNat && c.toNat ≤ 0x0d)

/-- Spaces of any script. -/
def isWideSpace (c : Char) : Bool :=
  let n := c.toNat
  isSpace c || n == 0x85 || n == 0xa0 || n == 0x1680 || (0x2000 ≤ n && n ≤ 0x200a) || n == 0x2028 ||
    n == 0x2029 || n == 0x202f || n == 0x205f || n == 0x3000

/-- Ranges of punctuation and symbols. -/
def punctuationRanges : List (Nat × Nat) :=
  [(0x21, 0x2f), (0x3a, 0x40), (0x5b, 0x60), (0x7b, 0x7e), (0xa1, 0xa9), (0xab, 0xac), (0xae, 0xb1),
    (0xb4, 0xb4), (0xb6, 0xb8), (0xbb, 0xbb), (0xbf, 0xbf), (0xd7, 0xd7), (0xf7, 0xf7),
    (0x2010, 0x2027), (0x2030, 0x205e), (0x20a0, 0x20c0), (0x2190, 0x23ff), (0x2500, 0x2775),
    (0x2794, 0x2bff), (0x3001, 0x3003), (0x3008, 0x3020), (0xff01, 0xff0f), (0xff1a, 0xff20),
    (0x1f300, 0x1faff)]

def isPunctuation (c : Char) : Bool :=
  punctuationRanges.any fun (low, high) => low ≤ c.toNat && c.toNat ≤ high

/-! ## Runs of emphasis marks -/

/-- A run of stars or underscores. -/
structure Run where
  /-- Its number among the runs of a text. -/
  index : Nat
  mark : Char
  /-- How long it was. -/
  whole : Nat
  /-- How many of its marks are not used yet. -/
  left : Nat
  canOpen : Bool
  canClose : Bool
deriving Repr

namespace Run

/-- The run between two characters. What stands at its sides decides what it can do; an underscore
inside a word can do nothing. -/
def ofSides (index : Nat) (mark : Char) (length : Nat) (before after : Char) : Run :=
  let opens := !isWideSpace after &&
    (!isPunctuation after || isWideSpace before || isPunctuation before)
  let closes := !isWideSpace before &&
    (!isPunctuation before || isWideSpace after || isPunctuation after)
  if mark == '_' then
    ⟨index, mark, length, length, opens && (!closes || isPunctuation before),
      closes && (!opens || isPunctuation after)⟩
  else ⟨index, mark, length, length, opens, closes⟩

/-- May a run open what another closes? -/
def fits (opener closer : Run) : Bool := opener.canOpen && opener.mark == closer.mark

/-- How many marks two runs use up together; none if the lengths of runs that could do both add up to a
multiple of three. -/
def used (opener closer : Run) : Nat :=
  if (opener.canClose || closer.canOpen) && (opener.whole + closer.whole) % 3 == 0 &&
      closer.whole % 3 != 0 then 0
  else if 2 ≤ opener.left && 2 ≤ closer.left then 2
  else 1

def use (r : Run) (n : Nat) : Run := { r with left := r.left - n }

/-- The nearest of the runs before a run that opens what it closes, with the runs in between and those
further away. -/
def opener? (closer : Run) : List Run → Option (List Run × Run × List Run)
  | [] => none
  | r :: rs =>
    if r.fits closer && 0 < used r closer then some ([], r, rs)
    else (opener? closer rs).map fun (between, opener, far) => (r :: between, opener, far)

/-- Pairs runs from the left. The runs before are kept nearest first; those that are done with come out
in any order. Every step uses up marks or passes a run, which `fuel` allows for. -/
def pair : Nat → List Run → List Run → List Run
  | 0, before, after => before ++ after
  | _, before, [] => before
  | fuel + 1, before, r :: after =>
    if !r.canClose then pair fuel (r :: before) after
    else
      match opener? r before with
      | none =>
        if !before.any (·.fits r) && !r.canOpen then r :: pair fuel before after
        else pair fuel (r :: before) after
      | some (between, opener, far) =>
        let n := used opener r
        let opener := opener.use n
        let r := r.use n
        between ++
          if opener.left = 0 then
            opener :: (if r.left = 0 then r :: pair fuel far after else pair fuel far (r :: after))
          else if r.left = 0 then r :: pair fuel (opener :: far) after
          else pair fuel (opener :: far) (r :: after)

/-- How many marks of each run are left over after all runs are paired. -/
def leftOver (runs : List Run) : List (Nat × Nat) :=
  let fuel := runs.foldl (fun n r => n + r.whole + 1) 0
  (pair fuel [] runs).map fun r => (r.index, r.left)

end Run

/-! ## Pieces of text -/

/-- A piece of a line. -/
inductive Piece where
  | text (cs : List Char)
  | run (r : Run)
deriving Repr

/-- What stands between a run of backticks and the next run of the same length, and what is left. -/
def codeSpan? (length : Nat) : Nat → List Char → List Char → Option (List Char × List Char)
  | 0, _, _ => none
  | _, _, [] => none
  | fuel + 1, code, c :: cs =>
    if c.toNat == 0x60 then
      let ticks := (c :: cs).takeWhile (·.toNat == 0x60)
      let rest := (c :: cs).dropWhile (·.toNat == 0x60)
      if ticks.length = length then some (code.reverse, rest)
      else codeSpan? length fuel (ticks ++ code) rest
    else codeSpan? length fuel (c :: code) cs

/-- Code loses a blank at each end, if it has both and is not all blanks. -/
def trimCode (cs : List Char) : List Char :=
  if !cs.all isSpace && cs.head?.any isSpace && cs.getLast?.any isSpace then cs.tail.dropLast else cs

/-- Blanks at the end of a line go. The text is kept last character first. -/
def endLine (text : List Char) : Piece := .text (text.dropWhile isSpace).reverse

/-- The pieces of a text. `text` is what was passed since the last piece, last character first, and
`before` the character before what is left. -/
def pieces : Nat → Nat → List Char → Char → List Char → List Piece
  | 0, _, text, _, _ => [endLine text]
  | _, _, text, _, [] => [endLine text]
  | fuel + 1, index, text, before, c :: cs =>
    if c == '\n' then endLine text :: pieces fuel index [] c cs
    else if c == '\\' then
      match cs with
      | '\n' :: cs => .text text.reverse :: pieces fuel index [] '\n' cs
      | d :: cs => pieces fuel index (d :: c :: text) d cs
      | [] => pieces fuel index (c :: text) c []
    else if c.toNat == 0x60 then
      let ticks := (c :: cs).takeWhile (·.toNat == 0x60)
      let rest := (c :: cs).dropWhile (·.toNat == 0x60)
      match codeSpan? ticks.length (rest.length + 1) [] rest with
      | some (code, rest) =>
        .text text.reverse :: .text (trimCode code) :: pieces fuel index [] c rest
      | none => .text (text.reverse ++ ticks) :: pieces fuel index [] c rest
    else if c == '*' || c == '_' then
      let marks := (c :: cs).takeWhile (· == c)
      let rest := (c :: cs).dropWhile (· == c)
      .text text.reverse :: .run (.ofSides index c marks.length before (rest.headD ' ')) ::
        pieces fuel (index + 1) [] c rest
    else pieces fuel index (c :: text) c cs

def Piece.run? : Piece → Option Run
  | .run r => some r
  | .text _ => none

/-- The text of inline content, given as lines with line ends between them. -/
def inlineText (cs : List Char) : String :=
  let ps := pieces (cs.length + 1) 0 [] '\n' cs
  let counts := Run.leftOver (ps.filterMap Piece.run?)
  String.ofList (ps.flatMap fun
    | .text cs => cs
    | .run r => List.replicate ((counts.lookup r.index).getD 0) r.mark)

end ShaderExpr.Markdown
