import ShaderExpr.Yaml.Token

/-!
# Anchors, tags and directives

The words of YAML text that say something about a node or a document: names of anchors, tags with
their handles, and directives at the start of a line.
-/

namespace ShaderExpr.Yaml

/-- The name after the sign of an anchor or an alias, and what is left. It is not empty, and a gap or
one of a few indicators follows it. -/
def anchorName? (c : Cursor) : Option (String × Cursor) :=
  let name := c.rest.takeWhile isWordChar
  let c := c.dropWhile isWordChar
  let ends := atGap c.rest || c.rest.head?.any fun d =>
    d == '?' || d == ':' || d == ',' || d == ']' || d == '\x7d' || d == '%' || d == '@' ||
      d.toNat == 0x60
  if name.isEmpty || !ends then none else some (String.ofList name, c)

/-- May a character stand in a tag? The percent sign starts the code of a byte. -/
def isTagChar (c : Char) : Bool :=
  isWordChar c || ";/?:@&=+$,.!~*'()[]%".toList.contains c

/-- The byte after a percent sign. -/
def codedByte? : List Char → Option (Nat × List Char)
  | '%' :: a :: b :: cs => do
    let a ← hexDigit? a
    let b ← hexDigit? b
    return (a * 16 + b, cs)
  | _ => none

/-- The number of bytes of a coded character, and what its first byte contributes. -/
def leadingByte? (n : Nat) : Option (Nat × Nat) :=
  if n < 0x80 then some (1, n)
  else if n / 0x20 = 6 then some (2, n % 0x20)
  else if n / 0x10 = 14 then some (3, n % 0x10)
  else if n / 0x08 = 30 then some (4, n % 0x08)
  else none

/-- The further bytes of a coded character. -/
def trailingBytes? : Nat → Nat → List Char → Option (Nat × List Char)
  | 0, value, cs => some (value, cs)
  | n + 1, value, cs => do
    let (b, cs) ← codedByte? cs
    if b / 0x40 = 2 then trailingBytes? n (value * 0x40 + b % 0x40) cs else none

/-- A character coded by its bytes. -/
def codedChar? (cs : List Char) : Option (Char × List Char) := do
  let (b, cs) ← codedByte? cs
  let (n, value) ← leadingByte? b
  let (value, cs) ← trailingBytes? (n - 1) value cs
  let c ← charOfCode? value
  return (c, cs)

/-- The characters of a tag with coded ones resolved; `fuel` is at least their number. -/
def tagChars? : Nat → List Char → Option (List Char)
  | _, [] => some []
  | 0, _ => none
  | fuel + 1, c :: cs =>
    if c == '%' then do
      let (d, rest) ← codedChar? (c :: cs)
      let ds ← tagChars? fuel rest
      return d :: ds
    else do
      let ds ← tagChars? fuel cs
      return c :: ds

/-- The text of a tag, and what is left. -/
def tagText? (c : Cursor) : Option (String × Cursor) := do
  let raw := c.rest.takeWhile isTagChar
  let cs ← tagChars? raw.length raw
  return (String.ofList cs, c.dropWhile isTagChar)

/-- The handle at the start of a tag: an exclamation mark, word characters, and the exclamation mark
after them if there is one. -/
def tagHandle? (c : Cursor) : Option (String × Cursor) :=
  match c.rest with
  | '!' :: cs =>
    let word := cs.takeWhile isWordChar
    let c := (c.drop 1).dropWhile isWordChar
    match c.rest with
    | '!' :: _ => some (String.ofList ('!' :: word ++ ['!']), c.drop 1)
    | _ => some (String.ofList ('!' :: word), c)
  | _ => none

/-- Handle and suffix of a tag, and what is left. A tag between angle brackets has no handle; a tag
with one exclamation mark has that as its handle; the exclamation mark alone is a suffix. -/
def tag? (c : Cursor) : Option (String × String × Cursor) := do
  let (handle, suffix, c) ← match c.rest with
    | '!' :: '<' :: _ => do
      let (suffix, c) ← tagText? (c.drop 2)
      if suffix.isEmpty || c.rest.head? != some '>' then none else some ("", suffix, c.drop 1)
    | _ => do
      let (handle, c') ← tagHandle? c
      if handle.length > 1 && handle.toList.getLast? == some '!' then do
        let (suffix, c) ← tagText? c'
        if suffix.isEmpty then none else some (handle, suffix, c)
      else do
        let (more, c) ← tagText? c'
        let suffix := String.ofList (handle.toList.drop 1) ++ more
        if suffix.isEmpty then some ("", "!", c) else some ("!", suffix, c)
  if atGap c.rest then some (handle, suffix, c) else none

/-- A natural of at most nine digits, and what is left. -/
def directiveNumber? (c : Cursor) : Option (Nat × Cursor) :=
  let ds := c.rest.takeWhile Char.isDigit
  if ds.isEmpty || 9 < ds.length then none
  else some (ds.foldl (fun n d => n * 10 + (d.toNat - 48)) 0, c.dropWhile Char.isDigit)

/-- A directive, after its percent sign, and what is left after its line. -/
def directive? (c : Cursor) : Option (TokenKind × Cursor) := do
  let name := c.rest.takeWhile isWordChar
  let c := c.dropWhile isWordChar
  if name.isEmpty || !atGap c.rest then none
  let blankStart := c.rest.head?.any isBlank
  let c := c.dropWhile isBlank
  let (kind, c) ← match String.ofList name with
    | "YAML" => do
      let (major, c) ← directiveNumber? c
      if c.rest.head? != some '.' then none
      let (minor, c) ← directiveNumber? (c.drop 1)
      some (TokenKind.versionDirective major minor, c)
    | "TAG" => do
      if !blankStart then none
      let (handle, c) ← tagHandle? c
      if handle != "!" && handle.toList.getLast? != some '!' then none
      if !c.rest.head?.any isBlank then none
      let (expansion, c) ← tagText? (c.dropWhile isBlank)
      if expansion.isEmpty || !atGap c.rest then none
      some (TokenKind.tagDirective handle expansion, c)
    | _ => none
  let c ← lineRemainder? c
  return (kind, c)

end ShaderExpr.Yaml
