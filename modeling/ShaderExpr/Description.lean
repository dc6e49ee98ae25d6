import ShaderExpr.Description.Expression
import ShaderExpr.Description.Outline
import ShaderExpr.Emitter

/-!
# Descriptions

A description is a document that declares functions and either a block or the two stages of a program.
Functions may call the functions before them, the blocks may call all of them.
-/

namespace ShaderExpr

open Yaml (Anchors)

/-- What a description declares beside functions. -/
inductive Content where
  | block (b : Block)
  /-- A program with the blocks of its two stages. -/
  | program (p : Program) (vertex fragment : Block)
deriving Repr

/-- A description of shader source. -/
structure Description where
  functions : List Function
  content : Content
deriving Repr

namespace Description

/-! ## Parts of a description -/

/-- The inputs of a mapping of names to shapes, in turn. -/
def inputPairs : List Yaml.Node → Outcome (List Input)
  | [] => .ok []
  | [_] => .error (.fault .brokenPart)
  | name :: shape :: rest => do
    let s ← match Shape.ofName? shape.text with
      | some s => pure s
      | none => .error (.error (.within (.line shape.line) (.cause (.unknownShape shape.text))))
    return ⟨name.text, s⟩ :: (← inputPairs rest)

/-- Inputs: a mapping of names to shapes, or nothing. -/
def readInputs (n : Yaml.Node) : Outcome (List Input) :=
  if n.isEmpty then .ok []
  else match n with
    | .mapping _ content => inputPairs content
    | n => .error (.error (.within (.line n.line) (.cause .inputsNotMapping)))

/-- The outputs of a mapping of output variables to bindings, in turn. -/
def outputPairs : List Yaml.Node → Outcome (List Block.Output)
  | [] => .ok []
  | [_] => .error (.fault .brokenPart)
  | target :: binding :: rest => do
    return ⟨target.text, binding.text⟩ :: (← outputPairs rest)

/-- Outputs: a mapping of output variables to bindings, or nothing. -/
def readOutputs (n : Yaml.Node) : Outcome (List Block.Output) :=
  if n.isEmpty then .ok []
  else match n with
    | .mapping _ content => outputPairs content
    | n => .error (.error (.within (.line n.line) (.cause .outputsNotMapping)))

/-- A block: inputs, then define steps in order. -/
def buildBlock (anchors : Anchors) (functions : Table Function) (inputs : List Input)
    (steps : List Yaml.Node) : Outcome Block := do
  let b ← Block.Attempt.outcome (Block.ofInputs inputs)
  steps.foldlM (fun b step => b.defineStep anchors functions step) b

/-- Adds a function to those before it. -/
def addFunction (anchors : Anchors) (functions : Table Function) (o : FunctionOutline) :
    Outcome (Table Function) := do
  if o.name.isEmpty then Outcome.fail .unnamedFunction
  if functions.contains o.name then
    .error (.error (.within (.function o.name) (.bare .duplicateBinding)))
  let inputs ← Outcome.inside (.functionInputs o.name) (readInputs o.inputs)
  let b ← Outcome.inside (.function o.name) (buildBlock anchors functions inputs o.steps)
  let fn ← Outcome.ofError (b.function o.name)
  return functions.insert o.name fn

/-- A stage and its block; the result of the block goes to a target. -/
def buildStage (anchors : Anchors) (functions : Table Function) (inputs : List Input)
    (o : StageOutline) (target : String) : Outcome (Block × Stage) := do
  let b ← buildBlock anchors functions inputs o.steps
  let outputs ← readOutputs o.outputs
  let st ← Outcome.ofError (b.stage target outputs)
  return (b, st)

/-- The color output of a fragment stage. -/
def readOut (n : Yaml.Node) : Outcome Param :=
  if n.isEmpty then .ok Program.defaultOut
  else do
    match ← Outcome.inside (.part "fragment out") (readInputs n) with
    | [i] => return i.param
    | _ => .error (.error (.within (.line n.line) (.cause .fragmentOutCount)))

/-- The program of an outline with two stages. -/
def buildProgram (anchors : Anchors) (functions : Table Function) (o : Outline)
    (vertex fragment : StageOutline) : Outcome Content := do
  if !o.steps.isEmpty || !o.inputs.isEmpty then Outcome.fail .blockBesideStages
  let uniforms ← Outcome.inside (.part "uniforms") (readInputs o.uniforms)
  let attributes ← Outcome.inside (.part "attributes") (readInputs o.attributes)
  let varyings ← Outcome.inside (.part "varyings") (readInputs o.varyings)
  let out ← readOut fragment.out
  let (vertexBlock, vertexStage) ← Outcome.inside (.part "vertex")
    (buildStage anchors functions (uniforms ++ attributes) vertex Program.vertexTarget)
  let (fragmentBlock, fragmentStage) ← Outcome.inside (.part "fragment")
    (buildStage anchors functions (uniforms ++ varyings) fragment out.name)
  let p : Program :=
    ⟨o.version, uniforms.map Input.param, attributes.map Input.param, varyings.map Input.param, out,
      vertexStage, fragmentStage, functions.entries.map Prod.snd⟩
  Outcome.ofError p.check
  return .program p vertexBlock fragmentBlock

/-- The description of an outline. -/
def build (anchors : Anchors) (o : Outline) : Outcome Description := do
  let functions ← o.functions.foldlM (addFunction anchors) .empty
  let content ← match o.vertex, o.fragment with
    | none, none => do
      let inputs ← Outcome.inside (.part "inputs") (readInputs o.inputs)
      pure (.block (← buildBlock anchors functions inputs o.steps))
    | some vertex, some fragment => buildProgram anchors functions o vertex fragment
    | _, _ => Outcome.fail .lonelyStage
  return ⟨functions.entries.map Prod.snd, content⟩

/-- The document of a text with its outline. -/
def outline (text : String) : Except Error (Anchors × Outline) := do
  match ← Yaml.Document.read text with
  | none => .error (.cause .yaml)
  | some d =>
    match Outline.ofDocument? d with
    | some o => .ok (d.anchors, o)
    | none => .error (.cause .yaml)

/-- Reads a description. -/
def read (text : String) : Outcome Description := do
  let (anchors, o) ← Outcome.inside (.part "decoding yaml") (Outcome.ofError (outline text))
  build anchors o

/-! ## What a description declares -/

/-- The block of a description without stages. -/
def block (d : Description) : Block :=
  match d.content with
  | .block b => b
  | .program .. => .empty

def vertex (d : Description) : Block :=
  match d.content with
  | .block _ => .empty
  | .program _ b _ => b

def fragment (d : Description) : Block :=
  match d.content with
  | .block _ => .empty
  | .program _ _ b => b

/-- The block that gives colors: that of the fragment stage, or the only one. -/
def picture (d : Description) : Block :=
  match d.content with
  | .block b => b
  | .program _ _ b => b

/-- Writes the source of a description. A program is one write; without stages the functions, an empty line
after them and the block are a write each. -/
def write (d : Description) (w : Sink) : Emission :=
  match d.content with
  | .program p _ _ => (Emitter.new.writeProgram (w 0) p).2
  | .block b =>
    let functions : Emission :=
      if d.functions.isEmpty then .nothing
      else (Emitter.new.writeFunctions (w 0) d.functions).2.andThen fun n => .written (w n) "\n"
    functions.andThen fun n =>
      match b.source with
      | .ok source => .written (w n) (source ++ "\n")
      | .error f => .failed (.fault f)

/-- The source of a description. -/
def text (d : Description) : Outcome String := (d.write .whole).text

end Description

end ShaderExpr
