/-!
# Blank characters

Names and numbers typed by a person are separated by blanks. The class holds every character with
the white space property, so it is wider than the four characters of `Char.isWhitespace`.
-/

namespace ShaderExpr.Text

/-- White space of any script, line ends included. -/
def isBlank (c : Char) : Bool :=
  let n := c.toNat
  (9 ≤ n && n ≤ 13) || n == 0x20 || n == 0x85 || n == 0xa0 || n == 0x1680 ||
    (0x2000 ≤ n && n ≤ 0x200a) || n == 0x2028 || n == 0x2029 || n == 0x202f || n == 0x205f ||
    n == 0x3000

/-- The characters without the blanks at both ends. -/
def trimChars (cs : List Char) : List Char :=
  ((cs.dropWhile isBlank).reverse.dropWhile isBlank).reverse

/-- The text without the blanks at both ends. -/
def trim (s : String) : String := String.ofList (trimChars s.toList)

/-- Splits off words at blanks; `word` holds the letters of the open word, last letter first. -/
def wordsFrom (word : List Char) : List Char → List (List Char)
  | [] => if word.isEmpty then [] else [word.reverse]
  | c :: cs =>
    if isBlank c then
      if word.isEmpty then wordsFrom [] cs else word.reverse :: wordsFrom [] cs
    else wordsFrom (c :: word) cs

/-- The words of a text, separated by any number of blanks. -/
def words (s : String) : List String := (wordsFrom [] s.toList).map String.ofList

/-- The pieces of a character list between separators: always one more than there are separators. -/
def splitChars (sep : Char) : List Char → List (List Char)
  | [] => [[]]
  | c :: cs =>
    match splitChars sep cs with
    | [] => [[c]]
    | piece :: rest => if c == sep then [] :: piece :: rest else (c :: piece) :: rest

/-- The pieces of a text between separators. -/
def split (sep : Char) (s : String) : List String := (splitChars sep s.toList).map String.ofList

end ShaderExpr.Text
