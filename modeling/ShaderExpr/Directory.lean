import ShaderExpr.Error
import ShaderExpr.Glob
import ShaderExpr.Table

/-!
# Directories

Files with their text, and folders, under their paths from the current directory. A path is followed step
by step, so each step but the last has to lead to a folder.
-/

namespace ShaderExpr

/-- What a path leads to. -/
inductive Place where
  | folder (path : String)
  | file (text : String)
  | missing
  /-- A file, and the path goes on behind it. -/
  | behindFile
deriving DecidableEq, Repr

/-- Files and folders. A folder with files in it need not be named. -/
structure Directory where
  files : Table String
  folders : List String
deriving Repr, Inhabited

namespace Directory

def empty : Directory := ⟨.empty, []⟩

/-! ## Paths -/

/-- The folder of a path and the name behind it. -/
def split (path : String) : String × String :=
  let steps := path.splitOn "/"
  ("/".intercalate steps.dropLast, steps.getLastD "")

/-- The folder of a path, by a path that is not empty. -/
def folderOf (path : String) : String :=
  let folder := (split path).1
  if !folder.isEmpty then folder
  else if path.startsWith "/" then "/"
  else "."

/-- Does a clean path lead out of the current directory and not into something else? -/
def isAbove (path : String) : Bool := path == ".." || path.endsWith "/.."

/-- One step from a folder with a clean path. -/
def move (folder step : String) : String :=
  if step.isEmpty || step == "." then folder
  else if step == ".." && folder == "/" then folder
  else if step == ".." && folder != "." && !isAbove folder then folderOf folder
  else if folder == "." then step
  else if folder == "/" then folder ++ step
  else folder ++ "/" ++ step

/-- Where the steps of a path start. -/
def start (path : String) : String := if path.startsWith "/" then "/" else "."

/-- A path without the steps in it that lead nowhere or back. -/
def clean (path : String) : String := (path.splitOn "/").foldl move (start path)

/-- The paths that a path passes on its way, and itself. -/
def passed (path : String) : List String :=
  let steps := path.splitOn "/"
  ((List.range (steps.length + 1)).map fun n => "/".intercalate (steps.take n)).filter (!·.isEmpty)

/-! ## Following paths -/

/-- Is a clean path that of a folder? -/
def isFolder (d : Directory) (path : String) : Bool :=
  path == "." || path == "/" || isAbove path || d.folders.contains path ||
    d.files.names.any (·.startsWith (path ++ "/"))

/-- What a clean path names. -/
def locate (d : Directory) (path : String) : Place :=
  match d.files.get? path with
  | some text => .file text
  | none => if d.isFolder path then .folder path else .missing

/-- What one more step leads to. -/
def step (d : Directory) (place : Place) (s : String) : Place :=
  match place with
  | .folder path => d.locate (move path s)
  | .missing => .missing
  | .file _ | .behindFile => .behindFile

/-- What a path leads to. The empty path leads nowhere. -/
def follow (d : Directory) (path : String) : Place :=
  if path.isEmpty then .missing else (path.splitOn "/").foldl d.step (.folder (start path))

def contains (d : Directory) (path : String) : Bool :=
  match d.follow path with
  | .folder _ | .file _ => true
  | .missing | .behindFile => false

/-! ## Reading and making files -/

/-- An error in dealing with a path. -/
def failure (action path : String) (cause : Cause) : Error :=
  .within (.part (action ++ " " ++ path)) (.cause cause)

/-- The text of a file. -/
def read (d : Directory) (path : String) : Except Error String :=
  match d.follow path with
  | .file text => .ok text
  | .folder _ => .error (failure "read" path .isDirectory)
  | .missing => .error (failure "open" path .fileMissing)
  | .behindFile => .error (failure "open" path .notDirectory)

/-- A path up to the slashes at its end. -/
def dropSlashes (path : String) : String :=
  String.ofList (path.toList.reverse.dropWhile (· == '/')).reverse

/-- Can a file be made? Its folder has to be there, and the path may not be one that only a folder can
have. -/
def checkCreate (d : Directory) (path : String) : Except Error Unit :=
  if path.isEmpty then .error (failure "open" path .fileMissing)
  else
    let bare := dropSlashes path
    match d.follow (folderOf bare) with
    | .folder folder =>
      let name := (split bare).2
      if bare != path || name == "." || name == ".." || d.isFolder (move folder name) then
        .error (failure "open" path .isDirectory)
      else .ok ()
    | .missing => .error (failure "open" path .fileMissing)
    | .file _ | .behindFile => .error (failure "open" path .notDirectory)

/-! ## Patterns -/

/-- The names in a folder with a clean path, in order. -/
def names (d : Directory) (folder : String) : List String :=
  let inside := (d.files.names ++ d.folders).filterMap fun path =>
    if folder == "." then (path.splitOn "/").head?
    else if path.startsWith (folder ++ "/") then
      (String.ofList (path.toList.drop (folder.length + 1))).splitOn "/" |>.head?
    else none
  inside.eraseDups.mergeSort fun a b => a ≤ b

/-- The paths in a folder whose names a pattern matches. -/
def matching (d : Directory) (parts : List Glob) (folder : String) : List String :=
  match d.follow folder with
  | .folder path =>
    ((d.names path).filter fun name => Glob.accepts parts name.toList).map fun name =>
      clean (folder ++ "/" ++ name)
  | _ => []

/-- The paths that a pattern matches, given by its steps from the last one backwards. -/
def globSteps (d : Directory) : List String → Option (List String)
  | [] => some []
  | name :: steps => do
    let folder := folderOf ("/".intercalate (name :: steps).reverse)
    let parts ← Glob.ofString? name
    if Glob.hasMeta folder then
      let folders ← d.globSteps steps
      return folders.flatMap (d.matching parts)
    else return d.matching parts folder

/-- The paths that a pattern matches, in order. -/
def glob (d : Directory) (pattern : String) : Except Error (List String) :=
  match Glob.ofString? pattern with
  | none => .error (.cause .badPattern)
  | some _ =>
    if !Glob.hasMeta pattern then .ok (if d.contains pattern then [pattern] else [])
    else
      match d.globSteps (pattern.splitOn "/").reverse with
      | some paths => .ok paths
      | none => .error (.cause .badPattern)

/-- The last step of a path. -/
def baseName (path : String) : String := (split path).2

/-- The last step of a path up to its last point. -/
def stem (path : String) : String :=
  let cs := (baseName path).toList
  if cs.contains '.' then String.ofList (cs.reverse.dropWhile (· != '.')).tail.reverse
  else String.ofList cs

end Directory

end ShaderExpr
