/-!
# Patterns of file names

In a pattern a star stands for any characters, a question mark for one character, and brackets for one
of a set of characters, or for one outside of it after a caret. A backslash takes the meaning from the
character behind it.
-/

namespace ShaderExpr

/-- A part of a pattern. -/
inductive Glob where
  | star
  | any
  | char (c : Char)
  | set (negated : Bool) (ranges : List (Char × Char))
deriving DecidableEq, Repr

namespace Glob

/-- A member of a set, and what is left, which is not empty. -/
def member? : List Char → Option (Char × List Char)
  | '\\' :: c :: d :: cs => some (c, d :: cs)
  | c :: d :: cs => if c == '-' || c == ']' || c == '\\' then none else some (c, d :: cs)
  | _ => none

/-- The ranges of a set up to its closing bracket. -/
def ranges? : Nat → List (Char × Char) → List Char → Option (List (Char × Char) × List Char)
  | 0, _, _ => none
  | fuel + 1, found, cs =>
    match found, cs with
    | _ :: _, ']' :: cs => some (found.reverse, cs)
    | found, cs => do
      let (low, cs) ← member? cs
      match cs with
      | '-' :: cs =>
        let (high, cs) ← member? cs
        ranges? fuel ((low, high) :: found) cs
      | cs => ranges? fuel ((low, low) :: found) cs

/-- The parts of a pattern; none if it is malformed. `fuel` is at least its length. -/
def parts? : Nat → List Char → Option (List Glob)
  | _, [] => some []
  | 0, _ => none
  | fuel + 1, c :: cs =>
    match c, cs with
    | '*', cs => (parts? fuel cs).map (.star :: ·)
    | '?', cs => (parts? fuel cs).map (.any :: ·)
    | '\\', [] => none
    | '\\', d :: cs => (parts? fuel cs).map (.char d :: ·)
    | '[', cs => do
      let (negated, cs) := match cs with
        | '^' :: cs => (true, cs)
        | cs => (false, cs)
      let (ranges, cs) ← ranges? (cs.length + 1) [] cs
      let parts ← parts? fuel cs
      return .set negated ranges :: parts
    | c, cs => (parts? fuel cs).map (.char c :: ·)

/-- The parts of a pattern; none if it is malformed. -/
def ofString? (pattern : String) : Option (List Glob) :=
  let cs := pattern.toList
  parts? cs.length cs

/-- Is a part of a text from some place to its end of a kind? -/
def anySuffix (p : List Char → Bool) : List Char → Bool
  | [] => p []
  | c :: cs => p (c :: cs) || anySuffix p cs

/-- Does a pattern match a whole name? -/
def accepts : List Glob → List Char → Bool
  | [], cs => cs.isEmpty
  | .star :: ps, cs => anySuffix (accepts ps) cs
  | .any :: ps, _ :: cs => accepts ps cs
  | .char d :: ps, c :: cs => c == d && accepts ps cs
  | .set negated ranges :: ps, c :: cs =>
    (ranges.any fun (low, high) => low ≤ c && c ≤ high) != negated && accepts ps cs
  | _ :: _, [] => false

/-- Does a text hold characters with a meaning in patterns? -/
def hasMeta (text : String) : Bool := text.toList.any fun c => c == '*' || c == '?' || c == '[' || c == '\\'

end Glob

end ShaderExpr
