import ShaderExpr.Description.Expression
import ShaderExpr.Text.Blank

/-!
# Sessions

A session builds a block line by line. A line is a define step or a command. Inputs may be declared at
any time: the define steps are then done again over the new inputs.

A line changes the session field by field, and what it has changed when it fails stays changed. How a text
is read as a document is left to whoever starts the session.
-/

namespace ShaderExpr

/-- A define step as it was read, with the anchored nodes of its line. -/
structure SessionStep where
  anchors : Yaml.Anchors
  node : Yaml.Node
deriving Repr

def Block.defineSessionStep (b : Block) (s : SessionStep) : Outcome Block :=
  b.defineStep s.anchors .empty s.node

/-- The state of a session. -/
structure Session where
  inputs : List Input
  steps : List SessionStep
  block : Block
deriving Repr

namespace Session

/-- What a line is answered with. -/
inductive Reply where
  | text (s : String)
  | quit
deriving DecidableEq, Repr

/-- The document on a line: one, none, or an error. -/
abbrev Reader := String → Except Error (Option Yaml.Document)

/-- What a line does: it reads and changes the session, and it gives an answer or fails. -/
abbrev Action := EStateM Failure Session

/-- An answer that does not touch the session. -/
def lift {α : Type} : Outcome α → Action α
  | .ok a => pure a
  | .error f => throw f

/-- A session at its start. -/
def empty : Session := ⟨[], [], .empty⟩

/-- The explanation of what a line may be. -/
def help : String :=
  "Each line is a define step, a YAML flow mapping of names to expressions:\n" ++
  "  \x7bn: \x7bnormalize: v\x7d, d: \x7bdot: [v, w]\x7d\x7d\n" ++
  "Commands:\n" ++
  "  :input <name> <shape>   declare a block input\n" ++
  "  :emit                   print the block's declarations\n" ++
  "  :return                 print the returns binding\n" ++
  "  :scope                  list names in scope\n" ++
  "  :reset                  discard inputs and bindings\n" ++
  "  :help                   print this help\n" ++
  "  :quit                   exit"

/-- The block of inputs and define steps. -/
def replay (inputs : List Input) (steps : List SessionStep) : Outcome Block := do
  let b ← Block.Attempt.outcome (Block.ofInputs inputs)
  Outcome.inside (.part "replaying definitions with new input")
    (steps.foldlM Block.defineSessionStep b)

/-- The define step on a line. -/
def readStep (read : Reader) (line : String) : Except Error SessionStep := do
  match ← read line with
  | some d => .ok ⟨d.anchors, d.root⟩
  | none => .error (.cause .singleMapping)

/-- A define step. The session has it before the answer is made up, which is the new declarations. -/
def define (read : Reader) (line : String) : Action Reply := do
  let step ← lift (Outcome.ofError (readStep read line))
  let before := (← get).block
  let b ← lift (before.defineSessionStep step)
  modify fun s => { s with block := b }
  modify fun s => { s with steps := s.steps ++ [step] }
  let text ← lift (Outcome.ofFault (Statement.texts "" (b.statements.drop before.size)))
  return .text text

/-- Declares an input. -/
def addInput (name shapeName : String) : Action Reply := do
  match Shape.ofName? shapeName with
  | none => lift (Outcome.fail (.unknownShape shapeName))
  | some shape =>
    let s ← get
    let inputs := s.inputs ++ [⟨name, shape⟩]
    let b ← lift (replay inputs s.steps)
    modify fun s => { s with inputs := inputs, block := b }
    return .text (shape.name ++ " " ++ name)

/-- A name in scope with its shape. -/
def scopeLine (scope : Scope) (name : String) : Except Fault String :=
  match scope.get? name with
  | some e => .ok (e.shape.name ++ " " ++ name)
  | none => .error .brokenPart

/-- The names in scope with their shapes, a line for each. -/
def scopeText (b : Block) : Except Fault String := do
  let lines ← b.scope.names.mapM (scopeLine b.scope)
  return "\n".intercalate lines

/-- The result of a block with its shape. -/
def returnText (b : Block) : Outcome String := do
  let e ← Outcome.ofError b.returns
  let text ← Outcome.ofFault e.text
  return e.shape.name ++ " " ++ text

/-- A command that only shows something of the block. -/
def present (text : Block → Outcome String) : Action Reply := do
  let s ← get
  return .text (← lift (text s.block))

/-- A command given as words. -/
def command (words : List String) : Action Reply :=
  match words with
  | ":quit" :: _ | ":q" :: _ => return .quit
  | ":help" :: _ => return .text help
  | [":input", name, shape] => addInput name shape
  | ":input" :: _ => lift (Outcome.fail .inputUsage)
  | ":emit" :: _ => present fun b => Outcome.ofFault b.source
  | ":return" :: _ => present returnText
  | ":scope" :: _ => present fun b => Outcome.ofFault (scopeText b)
  | ":reset" :: _ => do
    set empty
    return .text ""
  | words => lift (Outcome.fail (.unknownCommand (words.headD "")))

/-- Does a line. -/
def exec (read : Reader) (line : String) : Action Reply :=
  let line := Text.trim line
  if line.startsWith ":" then command (Text.words line) else define read line

end Session

end ShaderExpr
