import ShaderExpr.CommandLine
import ShaderExpr.Image.Png

/-!
# The program

Reads the files that the arguments name, does what the arguments say, then prints and writes what comes
out of it. A session is done line by line.
-/

namespace ShaderExpr

open CommandLine

/-- Adds what is found under a path. -/
def addFound (d : Directory) (path : String) : IO Directory := do
  try
    let inside := path ++ "/"
    let _ ← IO.FS.realPath inside
    return { d with folders := Directory.clean path :: d.folders }
  catch _ =>
    try
      let text ← IO.FS.readFile path
      return { d with files := d.files.insert (Directory.clean path) text }
    catch _ => return d

/-- The directory as far as the arguments name something in it. -/
def namedFiles (args : List String) : IO Directory :=
  (args.flatMap Directory.passed).foldlM addFound Directory.empty

/-- Answers lines until the input ends or the session does. -/
partial def converse (stdin stdout stderr : IO.FS.Stream) (s : Session) : IO Unit := do
  stdout.putStr Console.prompt
  stdout.flush
  let line ← stdin.getLine
  if line.isEmpty then
    stdout.putStr "\n"
  else
    let t := Console.turn Yaml.Document.read s line
    stdout.putStr t.stdout
    stderr.putStr t.stderr
    if !t.isLast then converse stdin stdout stderr t.session

/-- Writes a file. -/
def writeArtifact (path : String) : Artifact → IO Unit
  | .text s => IO.FS.writeFile path s
  | .image i => IO.FS.writeBinFile path ⟨(Png.encode i).toArray⟩

/-- Prints and writes what a report says. -/
def deliver (report : Report) (elapsed : String) : IO UInt32 := do
  let stdout ← IO.getStdout
  let stderr ← IO.getStderr
  for (path, artifact) in report.files do
    writeArtifact path artifact
  for p in report.stdout do
    match p with
    | .text s => stdout.putStr s
    | .elapsed => stdout.putStr elapsed
  stderr.putStr report.stderr
  return UInt32.ofNat report.status

/-- Does what the arguments say. -/
def runProgram (args : List String) : IO UInt32 := do
  if args == ["repl"] then
    let stdout ← IO.getStdout
    stdout.putStr Console.banner
    converse (← IO.getStdin) stdout (← IO.getStderr) Session.empty
    return 0
  let directory ← namedFiles args
  let start ← IO.monoMsNow
  let report ← IO.lazyPure fun _ => CommandLine.run ⟨directory, "", "(devel)", "lean4"⟩ args
  let stop ← IO.monoMsNow
  deliver report (toString (stop - start) ++ "ms")

end ShaderExpr

/-- The program. -/
def main (args : List String) : IO UInt32 := ShaderExpr.runProgram args
