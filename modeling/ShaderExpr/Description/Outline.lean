import ShaderExpr.Text.Base64
import ShaderExpr.Yaml.Document

/-!
# The outline of a description

What fields a document has, before any expression in it is looked at. All that can be wrong here makes
the document unreadable: a field that is not known, a field that is there twice, a field of the wrong
form.

A field may come through a merge key: the fields of the merged mappings count as far as the mapping, or
a mapping merged earlier, does not have them.
-/

namespace ShaderExpr

open Yaml (Anchors)

/-- The outline of a function. -/
structure FunctionOutline where
  name : String
  inputs : Yaml.Node
  steps : List Yaml.Node
deriving Repr

/-- The outline of a stage. -/
structure StageOutline where
  steps : List Yaml.Node
  /-- Output variables and the bindings assigned to them. -/
  outputs : Yaml.Node
  /-- The color output of a fragment stage. -/
  out : Yaml.Node
deriving Repr

/-- The outline of a description. -/
structure Outline where
  version : String
  inputs : Yaml.Node
  steps : List Yaml.Node
  uniforms : Yaml.Node
  attributes : Yaml.Node
  varyings : Yaml.Node
  functions : List FunctionOutline
  vertex : Option StageOutline
  fragment : Option StageOutline
deriving Repr

namespace Outline

/-! ## The fields of a mapping -/

/-- A field: its name and its value. -/
abbrev Field := String × Yaml.Node

/-- The text of a scalar: none for a scalar that is null, and that of its bytes for one that is binary. A
scalar with a tag that its text belies has no text, nor has any other node. -/
def text? (anchors : Anchors) (n : Yaml.Node) : Option (Option String) :=
  match anchors.resolve n with
  | .scalar _ tag text =>
    if !tag.agrees text then none
    else if tag == .null then some none
    else if tag == .other "!!binary" then (Text.base64? text).map some
    else some (some text)
  | _ => none

/-- Is a key the merge key? -/
def isMerge : Yaml.Node → Bool
  | .scalar _ tag text => tag == .merge && text == "<<"
  | _ => false

/-- Is no key of a mapping there twice? -/
def hasUniqueKeys : List Yaml.Node → Bool
  | key :: _ :: rest => !(hasKey key rest) && hasUniqueKeys rest
  | _ => true
where
  /-- Is a key among the keys of a mapping? -/
  hasKey (key : Yaml.Node) : List Yaml.Node → Bool
    | other :: _ :: rest => other.sameKey key || hasKey key rest
    | _ => false

/-- The fields that a mapping itself has; a key that is null is passed over. -/
def ownFields (anchors : Anchors) : List Yaml.Node → Option (List Field)
  | key :: value :: rest =>
    if isMerge key then ownFields anchors rest
    else do
      let name ← text? anchors key
      let fields ← ownFields anchors rest
      return match name with
        | some name => (name, value) :: fields
        | none => fields
  | _ => some []

/-- The nodes that the merge key of a mapping names. -/
def mergeSources : List Yaml.Node → List Yaml.Node
  | key :: value :: rest =>
    if isMerge key && !hasMerge rest then
      match value with
      | .sequence _ sources => sources
      | source => [source]
    else mergeSources rest
  | _ => []
where
  /-- Is the merge key among the keys of a mapping? -/
  hasMerge : List Yaml.Node → Bool
    | key :: _ :: rest => isMerge key || hasMerge rest
    | _ => false

/-- Adds fields whose names are not there yet. -/
def addFresh (fields : List Field) (more : List Field) : List Field :=
  more.foldl (fun fs f => if fs.any (·.1 == f.1) then fs else fs ++ [f]) fields

/-- Adds the fields of a mapping that is merged, and of those merged into it. Mappings that are merged
into themselves have no fields: `fuel` is at least the number of mappings. -/
def addMerged (anchors : Anchors) : Nat → List Field → Yaml.Node → Option (List Field)
  | 0, _, _ => none
  | fuel + 1, fields, n =>
    match anchors.resolve n with
    | .mapping _ content =>
      if hasUniqueKeys content then do
        let own ← ownFields anchors content
        (mergeSources content).foldlM (addMerged anchors fuel) (addFresh fields own)
      else none
    | _ => none

/-- The fields of a mapping, each name once. -/
def fields? (anchors : Anchors) (fuel : Nat) (n : Yaml.Node) : Option (List Field) :=
  match anchors.resolve n with
  | .mapping _ content =>
    if hasUniqueKeys content then do
      let own ← ownFields anchors content
      if (addFresh [] own).length < own.length then none
      (mergeSources content).foldlM (addMerged anchors fuel) own
    else none
  | _ => none

/-! ## Values of fields -/

/-- Is a node null? -/
def isNull (anchors : Anchors) (n : Yaml.Node) : Bool := text? anchors n == some none

/-- The entries of a field that is a sequence or null. -/
def entries? (anchors : Anchors) (n : Yaml.Node) : Option (List Yaml.Node) :=
  match anchors.resolve n with
  | .sequence _ content => some content
  | n => if isNull anchors n then some [] else none

/-- The text of a field that is a scalar; null is the empty text. -/
def textField? (anchors : Anchors) (n : Yaml.Node) : Option String :=
  (text? anchors n).map (·.getD "")

def readFunction? (anchors : Anchors) (fuel : Nat) (n : Yaml.Node) : Option FunctionOutline := do
  (← fields? anchors fuel n).foldlM (fun o (name, value) =>
    match name with
    | "name" => do return { o with name := ← textField? anchors value }
    | "inputs" => some { o with inputs := value }
    | "define" => do return { o with steps := ← entries? anchors value }
    | _ => none) ⟨"", .absent 0, []⟩

def readStage? (anchors : Anchors) (fuel : Nat) (n : Yaml.Node) : Option StageOutline := do
  (← fields? anchors fuel n).foldlM (fun o (name, value) =>
    match name with
    | "define" => do return { o with steps := ← entries? anchors value }
    | "outputs" => some { o with outputs := value }
    | "out" => some { o with out := value }
    | _ => none) ⟨[], .absent 0, .absent 0⟩

/-- A stage, which may be null. -/
def stageField? (anchors : Anchors) (fuel : Nat) (n : Yaml.Node) : Option (Option StageOutline) :=
  if isNull anchors n then some none else (readStage? anchors fuel n).map some

/-- Functions; entries that are null are passed over. -/
def functionsField? (anchors : Anchors) (fuel : Nat) (n : Yaml.Node) :
    Option (List FunctionOutline) := do
  let nodes ← entries? anchors n
  (nodes.filter (!isNull anchors ·)).mapM (readFunction? anchors fuel)

/-- The outline without fields. -/
def empty : Outline :=
  ⟨"", .absent 0, [], .absent 0, .absent 0, .absent 0, [], none, none⟩

/-- The outline of a document. A document that is null has no fields. -/
def ofDocument? (d : Yaml.Document) : Option Outline :=
  let anchors := d.anchors
  let fuel := d.root.size
  if isNull anchors d.root then some empty
  else do
    (← fields? anchors fuel d.root).foldlM (fun o (name, value) =>
      match name with
      | "version" => do return { o with version := ← textField? anchors value }
      | "inputs" => some { o with inputs := value }
      | "define" => do return { o with steps := ← entries? anchors value }
      | "uniforms" => some { o with uniforms := value }
      | "attributes" => some { o with attributes := value }
      | "varyings" => some { o with varyings := value }
      | "functions" => do return { o with functions := ← functionsField? anchors fuel value }
      | "vertex" => do return { o with vertex := ← stageField? anchors fuel value }
      | "fragment" => do return { o with fragment := ← stageField? anchors fuel value }
      | _ => none) empty

end Outline

end ShaderExpr
