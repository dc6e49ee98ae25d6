import ShaderExpr.CommandLine.Console
import ShaderExpr.CommandLine.Flag
import ShaderExpr.Directory
import ShaderExpr.Gpu
import ShaderExpr.Preview
import ShaderExpr.Text.Lines

/-!
# The command line

What the program does with its arguments, as a function: given the contents of the directory and what is
typed in, a report says what is printed, which files are made and how the program ends.
-/

namespace ShaderExpr.CommandLine

/-- What a program finds around it. -/
structure Surroundings where
  directory : Directory
  stdin : String
  version : String
  toolchain : String

/-- A part of what is printed. -/
inductive Printed where
  | text (s : String)
  /-- How long rendering took, which is known only outside. -/
  | elapsed
deriving DecidableEq, Repr

/-- The contents of a file that is made. -/
inductive Artifact where
  | text (s : String)
  | image (i : Image)
deriving DecidableEq, Repr

/-- What a program leaves behind. -/
structure Report where
  status : Nat
  stdout : List Printed
  stderr : String
  files : List (String × Artifact)
deriving Repr

namespace Report

/-- A program that ends well. -/
def done (stdout : List Printed) : Report := ⟨0, stdout, "", []⟩

/-- A program that ends with a failure, after it has printed something. A fault ends it at once. -/
def failed (stdout : List Printed) : Failure → Report
  | .error e => ⟨1, stdout, "glexpr: " ++ e.message ++ "\n", []⟩
  | .fault f => ⟨2, stdout, Console.failureText (.fault f) ++ "\n", []⟩

/-- The report of an outcome. -/
def ofOutcome : Outcome Report → Report
  | .ok r => r
  | .error f => failed [] f

end Report

/-- The explanation of the commands. -/
def usage : String :=
  "usage: glexpr <command> [flags] [file]\n\n" ++
  "commands:\n" ++
  "  emit      write generated GLSL of a description\n" ++
  "  repl      define bindings interactively\n" ++
  "  render    render the fragment block of a description to PNG on the CPU\n" ++
  "  check     compile the program of a description with the OpenGL driver\n" ++
  "  preview   draw the fragment block of a description in a window\n" ++
  "  version   print version information\n"

/-! ## Flags of the commands -/

def emitFlags : List Flag := [⟨"o", "output file, stdout if empty", .text ""⟩]

def renderFlags : List Flag :=
  [⟨"band", "band width of the bands colormap", .number 0.1⟩,
    ⟨"caption", "caption drawn on image", .text ""⟩,
    ⟨"colormap", "color of float results: gray, gradient or bands", .text "gray"⟩,
    ⟨"height", "image height in pixels", .int 256⟩,
    ⟨"o", "output PNG file", .text "glexpr.png"⟩,
    ⟨"silent", "do not print progress", .switch false⟩,
    ⟨"time", "value of the time uniform", .number 0⟩,
    ⟨"uv", "name of the vec2 pixel coordinate input", .text Rendering.defaultPlace⟩,
    ⟨"width", "image width in pixels", .int 256⟩]

def previewFlags : List Flag :=
  [⟨"height", "window height", .int 600⟩,
    ⟨"uv", "name of the vec2 pixel coordinate varying", .text Rendering.defaultPlace⟩,
    ⟨"width", "window width", .int 800⟩]

/-! ## Commands -/

/-- The description in a file. -/
def load (d : Directory) (path : String) : Outcome Description := do
  let text ← Outcome.ofError (d.read path)
  Outcome.inside (.part path) (Description.read text)

/-- Does a command that takes flags and the file of a description. -/
def withDescription (s : Surroundings) (command : String) (flags : List Flag) (args : List String)
    (act : Arguments → Description → Outcome Report) : Report :=
  match Arguments.read flags args with
  | .error .help => ⟨0, [], Flag.usage command flags, []⟩
  | .error problem => ⟨2, [], problem.message ++ Flag.usage command flags, []⟩
  | .ok a =>
    match a.rest with
    | [path] => Report.ofOutcome (load s.directory path >>= act a)
    | _ => Report.ofOutcome (Outcome.fail (.fileArgument command))

/-- Writes the source of a description to a file, or prints it. -/
def emit (s : Surroundings) (a : Arguments) (d : Description) : Outcome Report := do
  let path := a.text "o"
  if !path.isEmpty then Outcome.ofError (s.directory.checkCreate path)
  let text ← Outcome.inside (.part "writing GLSL") d.text
  if path.isEmpty then return .done [.text text]
  return { Report.done [] with files := [(path, .text text)] }

/-- The values that a block gets for the inputs that rendering knows. -/
def renderInputs (a : Arguments) (b : Block) : Table Value :=
  .ofList (b.inputs.filterMap fun i =>
    if i = Preview.timeInput then some (i.name, .ofFloat (a.number "time"))
    else if i = Preview.sizeInput then
      some (i.name, .ofList .vec2 [.ofInt (a.int "width"), .ofInt (a.int "height")])
    else none)

/-- Renders the block of a description to a file. -/
def render (s : Surroundings) (a : Arguments) (d : Description) : Outcome Report := do
  let colormap ← Outcome.ofError (Colormap.ofName (a.text "colormap") (a.number "band"))
  let rendering : Rendering :=
    ⟨a.int "width", a.int "height", a.text "uv", renderInputs a d.picture, d.functions,
      colormap.map Colormap.color, a.text "caption"⟩
  let image ← Outcome.inside (.part "rendering") (rendering.image .standard d.picture)
  let path := a.text "o"
  let say := fun (ps : List Printed) => if a.isOn "silent" then [] else ps
  let count := toString (rendering.width * rendering.height)
  let evaluated := say [.text ("evaluated " ++ count ++ " pixels in "), .elapsed, .text "\n"]
  match s.directory.checkCreate path with
  | .error e => return .failed evaluated (.error (.within (.part "rendering") e))
  | .ok () =>
    let wrote := say [.text ("wrote " ++ path ++ "\n")]
    return { Report.done (evaluated ++ wrote) with files := [(path, .image image)] }

/-- Compiles the program of a description. -/
def check (a : Arguments) (d : Description) : Outcome Report := do
  let p ← match d.content with
    | .program p _ _ => pure p
    | .block b =>
      Outcome.inside (.part "description has no stages and block is not previewable")
        (Preview.program b "" d.functions)
  Outcome.inside (.part "initializing OpenGL") (Outcome.ofError Gpu.start)
  Outcome.inside (.part "compiling") (Outcome.ofError (Gpu.check p))
  return .done [.text ("ok " ++ a.rest.headD "" ++ "\n")]

/-- Shows the block of a description in a window. -/
def preview (a : Arguments) (d : Description) : Outcome Report := do
  Preview.window d.picture (a.text "uv") d.functions
  return .done []

/-- A session over what is typed in. -/
def session (stdin : String) : Report :=
  let (out, err) := Console.transcript Yaml.Document.read .empty (Text.lines stdin)
  ⟨0, [.text (Console.banner ++ out)], err, []⟩

/-- Does what the arguments say. -/
def run (s : Surroundings) (args : List String) : Report :=
  match args with
  | [] => ⟨2, [], usage, []⟩
  | command :: args =>
    match command with
    | "emit" => withDescription s command emitFlags args (emit s)
    | "render" => withDescription s command renderFlags args (render s)
    | "check" => withDescription s command [] args check
    | "preview" => withDescription s command previewFlags args preview
    | "repl" =>
      if args.isEmpty then session s.stdin
      else Report.ofOutcome (Outcome.fail (.sessionArguments args))
    | "version" => .done [.text ("glexpr " ++ s.version ++ " " ++ s.toolchain ++ "\n")]
    | "help" | "-h" | "-help" | "--help" => .done [.text usage]
    | _ =>
      let r := Report.ofOutcome (Outcome.fail (.unknownProgramCommand command))
      { r with stderr := usage ++ r.stderr }

end ShaderExpr.CommandLine
