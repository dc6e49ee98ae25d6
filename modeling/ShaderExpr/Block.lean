import ShaderExpr.Combiner
import ShaderExpr.Table

/-!
# Blocks

A block is a list of declarations over declared inputs, together with the names in scope. A define
step adds bindings at its end: it sees the names in scope before it, and either all of its bindings
become declarations or none does.
-/

namespace ShaderExpr

/-- The name of the binding that is the result of a block. -/
def returnName : String := "returns"

/-- A value that a block gets from outside. -/
structure Input where
  name : String
  shape : Shape
deriving DecidableEq, Repr, Inhabited

/-- An input as it is asked for, with its shape given by number. -/
structure InputRequest where
  name : String
  shape : ShapeCode
deriving DecidableEq, Repr

def Input.request (i : Input) : InputRequest := ⟨i.name, i.shape.code⟩

def Input.param (i : Input) : Param := ⟨i.shape.name, i.name⟩

/-- A declaration of a block. -/
structure Declaration where
  shape : Shape
  name : String
  value : Node
deriving Repr, Inhabited

def Declaration.statement (d : Declaration) : Statement := ⟨d.shape.name, d.name, d.value⟩

/-- The names in scope, in the order in which they were bound, and a table of what they stand for. The scope
of the empty block has no table: the first define step makes one. -/
structure Scope where
  names : List String
  vars : Option (Table Expr)
deriving Repr, Inhabited

/-- A typed look-up of a name. -/
structure Lookup where
  name : String
  shape : Shape
deriving DecidableEq, Repr

namespace Scope

/-- Nothing is in scope, and there is no table. -/
def empty : Scope := ⟨[], none⟩

/-- The table of a scope, or a new one. -/
def table (s : Scope) : Table Expr := s.vars.getD .empty

/-- The scope with a table to bind names in. -/
def opened (s : Scope) : Scope := ⟨s.names, some s.table⟩

/-- The expression bound to a name. Without a table there is none. -/
def get? (s : Scope) (name : String) : Option Expr := s.vars.bind (·.get? name)

def contains (s : Scope) (name : String) : Bool := (s.get? name).isSome

/-- Puts an expression under a name, which goes to the end of the names. -/
def insert (s : Scope) (name : String) (e : Expr) : Scope :=
  ⟨s.names ++ [name], some (s.table.insert name e)⟩

/-- Binds a name to a reference to itself. -/
def bind (s : Scope) (name : String) (shape : Shape) : Scope := s.insert name (.var name shape)

/-- The error of a typed look-up, if the name is not bound or has another shape. -/
def lookupError? (s : Scope) (l : Lookup) : Option Error :=
  match s.get? l.name with
  | none => some (.cause (.unknownName l.name))
  | some e => if e.shape = l.shape then none else some (.cause (.otherShape l.name e.shape l.shape))

/-- The errors of typed look-ups in the order of the look-ups. -/
def lookupErrors (s : Scope) (ls : List Lookup) : List Error := ls.filterMap s.lookupError?

end Scope

/-- What a typed look-up gives, whether or not it fails. -/
def Lookup.expr (l : Lookup) : Expr := .var l.name l.shape

/-- A name for an expression, which may be absent. -/
structure Binding where
  name : String
  value : Option Expr
deriving Repr

/-- What a define step asks for: the typed look-ups that it made, its bindings, and its own error. -/
structure Draft where
  lookups : List Lookup
  bindings : List Binding
  failure : Option Error
deriving Repr

/-- A list of declarations over inputs. -/
structure Block where
  inputs : List Input
  scope : Scope
  declarations : List Declaration
deriving Repr, Inhabited

namespace Block

/-- The block without inputs and declarations. -/
def empty : Block := ⟨[], .empty, []⟩

/-- A block, and the error of the call that it comes from if that failed. A failed call answers with a block
too, and its caller may go on with that block. -/
structure Attempt where
  block : Block
  error : Option Error
deriving Repr

namespace Attempt

/-- The block of a call that did not fail. -/
def result (t : Attempt) : Except Error Block :=
  match t.error with
  | none => .ok t.block
  | some e => .error e

/-- The block of a call that neither failed nor is at fault. -/
def outcome (t : Except Fault Attempt) : Outcome Block := do
  let t ← Outcome.ofFault t
  Outcome.ofError t.result

end Attempt

/-- The block with a table to bind names in. -/
def opened (b : Block) : Block := { b with scope := b.scope.opened }

/-- Adds an input. -/
def addInput (b : Block) (r : InputRequest) : Outcome Block :=
  if r.name.isEmpty then Outcome.fail .emptyInputName
  else if !r.shape.isValid then Outcome.fail (.invalidInputShape r.name r.shape.number)
  else if b.scope.contains r.name then Outcome.fail (.duplicateInput r.name)
  else do
    let e ← Outcome.ofFault (Expr.varOfCode r.name r.shape)
    return { b with inputs := b.inputs ++ [⟨r.name, e.shape⟩], scope := b.scope.insert r.name e }

/-- Adds inputs in turn. If one of them can not be added, nothing is left of the others. -/
def addInputs (b : Block) : List InputRequest → Except Fault Attempt
  | [] => .ok ⟨b, none⟩
  | r :: rs =>
    match b.addInput r with
    | .ok b => b.addInputs rs
    | .error (.error e) => .ok ⟨empty, some e⟩
    | .error (.fault f) => .error f

/-- A block of inputs only. -/
def ofRequests (rs : List InputRequest) : Except Fault Attempt := empty.opened.addInputs rs

/-- A block of inputs only. -/
def ofInputs (inputs : List Input) : Except Fault Attempt := ofRequests (inputs.map Input.request)

/-- Adds the binding at an index of a define step. -/
def addBinding (b : Block) (index : Nat) (bd : Binding) : Except Error Block :=
  if bd.name.isEmpty then .error (.cause (.emptyBindingName index))
  else match bd.value with
    | none => .error (.within (.binding bd.name) (.cause .missingExpression))
    | some ⟨_, .missing⟩ => .error (.within (.binding bd.name) (.cause .missingExpression))
    | some e =>
      if !e.node.isComplete then
        .error (.within (.binding bd.name) (.cause (.uninitializedOperand e.shape)))
      else if b.scope.contains bd.name then .error (.cause (.duplicateName bd.name))
      else .ok { b with
        scope := b.scope.bind bd.name e.shape
        declarations := b.declarations ++ [⟨e.shape, bd.name, e.node⟩] }

/-- The errors of a draft before its bindings are looked at. -/
def draftError? (b : Block) (d : Draft) : Option Error :=
  Error.join? (d.failure.toList ++ b.scope.lookupErrors d.lookups)

/-- Adds bindings to a copy of a block, the first of them at an index. If one of them can not be added, the
answer is the block itself, whatever the copy has got by then. -/
def extend (b copy : Block) : Nat → List Binding → Attempt
  | _, [] => ⟨copy, none⟩
  | i, bd :: bds =>
    match copy.addBinding i bd with
    | .ok copy => b.extend copy (i + 1) bds
    | .error e => ⟨b, some e⟩

/-- A define step: a draft made from the names in scope, whose bindings are added to a copy of the block. -/
def define (b : Block) (step : Option (Scope → Draft)) : Attempt :=
  match step with
  | none => ⟨b, some (.cause .missingDefinition)⟩
  | some step =>
    let draft := step b.scope
    match b.draftError? draft with
    | some e => ⟨b, some e⟩
    | none => b.extend b.opened 0 draft.bindings

def size (b : Block) : Nat := b.declarations.length

/-- Does some declaration give the result of the block? -/
def hasReturn (b : Block) : Bool := b.declarations.any (·.name == returnName)

/-- The reference to the result of the block. An input is never the result. -/
def returns (b : Block) : Except Error Expr :=
  match b.hasReturn, b.scope.get? returnName with
  | true, some e => .ok e
  | _, _ => .error (.bare .missingReturn)

def statements (b : Block) : List Statement := b.declarations.map Declaration.statement

/-- The declarations on lines of their own, each after an indent. -/
def text (b : Block) (indent : String) : Except Fault String := Statement.texts indent b.statements

/-- The declarations on lines of their own. -/
def source (b : Block) : Except Fault String := b.text ""

/-- The function that takes the inputs and returns the result of the block. -/
def function (b : Block) (name : String) : Except Error Function := do
  let result ← b.returns.mapError (.within (.function name))
  let fn : Function :=
    ⟨name, result.shape.name, b.inputs.map Input.param, b.statements, result.node⟩
  fn.check
  return fn

/-- An output variable and the binding that is assigned to it. -/
structure Output where
  target : String
  binding : String
deriving DecidableEq, Repr

def outputAssign (b : Block) (o : Output) : Except Error Assign :=
  match b.scope.get? o.binding with
  | none => .error (.cause (.unknownOutput o.target o.binding))
  | some e => .ok ⟨o.target, e.node⟩

/-- The stage that assigns the result of the block to a target, then the other outputs. -/
def stage (b : Block) (target : String) (outputs : List Output) : Except Error Stage := do
  let result ← b.returns
  let assigns ← outputs.mapM b.outputAssign
  return ⟨b.statements, ⟨target, result.node⟩ :: assigns⟩

end Block

end ShaderExpr
