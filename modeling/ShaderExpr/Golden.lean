import ShaderExpr.Directory
import ShaderExpr.Markdown

/-!
# Worked examples

A Markdown document may hold worked examples. One starts at a heading `Test: name` and goes on to the
next such heading; other headings do not end it. Its fenced blocks hold a description and either the
source that comes out or the error.
-/

namespace ShaderExpr

/-- A worked example. -/
structure Golden where
  name : String
  input : String
  /-- The source that comes out, empty if an error does. -/
  want : String
  /-- The error that comes out, empty if source does. -/
  wantError : String
  line : Nat
deriving DecidableEq, Repr

namespace Golden

/-- What the heading of a worked example starts with. -/
def headingStart : String := "Test: "

/-- The name of the worked example that a heading starts. -/
def nameOf? (heading : String) : Option String :=
  if heading.startsWith headingStart then
    some (String.ofList (heading.toList.drop headingStart.length))
  else none

/-- A worked example of which only the heading is known. -/
def start (name : String) (line : Nat) : Golden := ⟨name, "", "", "", line⟩

/-- Is a worked example complete? -/
def check (g : Golden) : Except Error Unit :=
  let fail := fun (c : Cause) => Except.error (Error.within (.line g.line) (.cause c))
  if g.input.isEmpty then fail (.missingInputFence g.name)
  else if g.want.isEmpty && g.wantError.isEmpty then fail (.missingResultFence g.name)
  else if !g.want.isEmpty && !g.wantError.isEmpty then fail (.twoResults g.name)
  else .ok ()

/-- A text without the line ends behind it. -/
def trimLineEnds (text : String) : String :=
  String.ofList (text.toList.reverse.dropWhile (· == '\n')).reverse

/-- Adds a fenced block, which takes the place of an empty one of its language. -/
def addFence (g : Golden) (line : Nat) (language content : String) : Except Error Golden :=
  let text := trimLineEnds content
  let put := fun (old : String) (new : Golden) =>
    if old.isEmpty then Except.ok new
    else .error (Error.within (.line line) (.cause (.repeatedFence language g.name)))
  match language with
  | "yaml" => put g.input { g with input := text }
  | "glsl" => put g.want { g with want := text }
  | "error" => put g.wantError { g with wantError := text }
  | _ => .error (.within (.line line) (.cause (.unknownFence language g.name)))

/-- The worked examples of events, after the one that is open. -/
def extractFrom (current : Option Golden) : List Markdown.Event → Except Error (List Golden)
  | [] =>
    match current with
    | none => .ok []
    | some g => do
      g.check
      return [g]
  | .heading line text :: rest =>
    match nameOf? text, current with
    | none, current => extractFrom current rest
    | some name, none => extractFrom (some (start name line)) rest
    | some name, some g => do
      g.check
      return g :: (← extractFrom (some (start name line)) rest)
  | .fence line language content :: rest =>
    match current with
    | none =>
      if language.isEmpty then extractFrom none rest
      else .error (.within (.line line) (.cause (.strayFence language)))
    | some g => do
      let g ← g.addFence line language content
      extractFrom (some g) rest

/-- The worked examples of events. -/
def extract (events : List Markdown.Event) : Except Error (List Golden) := extractFrom none events

/-- The worked examples of a document. -/
def read (text : String) : Except Error (List Golden) := extract (Markdown.events text)

/-- The worked examples of a file, their names behind that of the file. -/
def readFile (d : Directory) (path : String) : Except Error (List Golden) := do
  let text ← d.read path
  let gs ← (read text).mapError (.within (.part path))
  return gs.map fun g => { g with name := Directory.stem path ++ "/" ++ g.name }

/-- The worked examples of the files that a pattern matches. -/
def readFiles (d : Directory) (pattern : String) : Except Error (List Golden) := do
  let paths ← d.glob pattern
  let cases ← paths.mapM (readFile d)
  return cases.flatten

end Golden

end ShaderExpr
