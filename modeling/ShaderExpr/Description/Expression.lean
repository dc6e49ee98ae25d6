import ShaderExpr.Block
import ShaderExpr.Table
import ShaderExpr.Yaml.Node

/-!
# Expressions in descriptions

How a node of a document denotes an expression:

* a number is a literal;
* any other scalar is a name in scope;
* a mapping of one key is an operation, a shape or a function, looked for in that order, on its
  operands: the entries of a sequence, or the one node that stands there;
* a shape of as many numbers as it has components is a literal, matrices row by row; any other operands
  of a shape are combined.

An alias denotes what the node that it refers to denotes. Aliases that lead to themselves denote
nothing: a chain of more aliases than there are anchored nodes passes one of them twice.
-/

namespace ShaderExpr

/-- What the names in an expression may stand for. -/
structure Vocabulary where
  anchors : Yaml.Anchors
  functions : Table Function
  scope : Scope

namespace Vocabulary

/-- What the key of a mapping stands for. -/
inductive Head where
  | operation (op : Operation)
  | shape (s : Shape)
  | function (fn : Function)

/-- What a name stands for as the key of a mapping. -/
def head? (v : Vocabulary) (name : String) : Option Head :=
  match Operation.ofName? name with
  | some op => some (.operation op)
  | none =>
    match Shape.ofName? name with
    | some s => some (.shape s)
    | none => (v.functions.get? name).map .function

/-- The number that a node denotes. -/
def number? : Yaml.Node → Option Binary32
  | .scalar _ tag text => if tag.isNumber then (Binary32.read text).toOption else none
  | _ => none

/-- The components of a literal of a shape: nodes that are all numbers, and as many as it takes. -/
def components? (s : Shape) (nodes : List Yaml.Node) : Option (List Binary32) :=
  match nodes.mapM number? with
  | some comps => if comps.length = s.arity then some comps else none
  | none => none

/-- The expression that a scalar denotes. -/
def scalar (v : Vocabulary) (line : Nat) (tag : Yaml.Tag) (text : String) : Except Error Expr :=
  if tag.isNumber then
    match Binary32.read text with
    | .ok x => .ok (.literalOf .float [x])
    | .error flaw => .error (.within (.line line) (.cause (.numeral text flaw)))
  else
    match v.scope.get? text with
    | some e => .ok e
    | none => .error (.within (.reference line text) (.bare .unknownBinding))

/-- Applies what a key stands for to operands. An operation takes the first of them as its receiver. -/
def applyHead (head : Head) (operands : List Expr) : Outcome Expr :=
  match head with
  | .operation op =>
    match operands with
    | [] => .error (.fault .noOperands)
    | recv :: args => Outcome.ofError (Expr.apply op.code (some recv) (args.map some))
  | .shape s => do
    let c ← Outcome.ofFault (Combiner.ofOptions (operands.map some))
    Outcome.ofError (c.toShape s)
  | .function fn => Outcome.ofError (Expr.call fn (operands.map some))

/-- The expression of a mapping with a key and operands, given what the operands denote. -/
def mapping (v : Vocabulary) (key : Yaml.Node) (nodes : List Yaml.Node)
    (operands : Outcome (List Expr)) : Outcome Expr :=
  if nodes.isEmpty then
    .error (.error (.within (.line key.line) (.cause (.missingOperands key.text))))
  else
    match v.head? key.text with
    | none => .error (.error (.within (.unresolvedKey key.line key.text) (.bare .invalidOperation)))
    | some head => do
      if let .shape s := head then
        if let some comps := components? s nodes then
          return ← Outcome.inside (.line key.line) (Expr.literal s.code comps)
      let es ← operands
      Outcome.inside (.line key.line) (applyHead head es)

mutual

/-- The expression that a node denotes, given what aliases denote. -/
def readAt (v : Vocabulary) (follow : Option Nat → Outcome Expr) : Yaml.Node → Outcome Expr
  | .alias _ _ target => follow target
  | .scalar line tag text => Outcome.ofError (v.scalar line tag text)
  | .mapping _ [key, .sequence _ nodes] => v.mapping key nodes (readAllAt v follow nodes)
  | .mapping _ [key, value] => v.mapping key [value] (do return [← readAt v follow value])
  | .mapping line _ => .error (.error (.within (.line line) (.cause .manyKeys)))
  | .sequence line _ => unexpected line "sequence"
  | .document line _ => unexpected line "document"
  | .absent line => unexpected line "node"
where
  /-- A node that denotes no expression. -/
  unexpected (line : Nat) (kind : String) : Outcome Expr :=
    .error (.error (.within (.line line) (.cause (.unexpectedNode kind))))

/-- The expressions that nodes denote, from the left. -/
def readAllAt (v : Vocabulary) (follow : Option Nat → Outcome Expr) :
    List Yaml.Node → Outcome (List Expr)
  | [] => .ok []
  | n :: ns => do
    let e ← readAt v follow n
    let es ← readAllAt v follow ns
    return e :: es

end

/-- What the anchored node with an index denotes, through at most so many more aliases. -/
def follow (v : Vocabulary) : Nat → Option Nat → Outcome Expr
  | 0, target =>
    match target.bind (v.anchors[·]?) with
    | some _ => .error (.fault .endless)
    | none => .error (.fault .brokenPart)
  | depth + 1, target =>
    match target.bind (v.anchors[·]?) with
    | some n => v.readAt (v.follow depth) n
    | none => .error (.fault .brokenPart)

/-- The expression that a node denotes. -/
def read (v : Vocabulary) (n : Yaml.Node) : Outcome Expr := v.readAt (v.follow v.anchors.size) n

/-- The bindings of a define step: names and expressions in turn. -/
def readBindings (v : Vocabulary) : List Yaml.Node → Outcome (List Binding)
  | [] => .ok []
  | [_] => .error (.fault .brokenPart)
  | name :: value :: rest => do
    let e ← Outcome.inside (.binding name.text) (v.read value)
    let bs ← v.readBindings rest
    return ⟨name.text, some e⟩ :: bs

end Vocabulary

/-- A define step of a description: a mapping of names to expressions over the names in scope before
it. -/
def Block.attemptStep (b : Block) (anchors : Yaml.Anchors) (functions : Table Function)
    (step : Yaml.Node) : Except Fault Attempt :=
  match step with
  | .mapping _ content =>
    match Vocabulary.readBindings ⟨anchors, functions, b.scope⟩ content with
    | .ok bindings => .ok (b.define (some fun _ => ⟨[], bindings, none⟩))
    | .error (.error e) => .ok (b.define (some fun _ => ⟨[], [], some e⟩))
    | .error (.fault f) => .error f
  | n => .ok ⟨b, some (.within (.line n.line) (.cause .stepNotMapping))⟩

/-- The block after a define step of a description that did not fail. -/
def Block.defineStep (b : Block) (anchors : Yaml.Anchors) (functions : Table Function)
    (step : Yaml.Node) : Outcome Block :=
  Attempt.outcome (b.attemptStep anchors functions step)

end ShaderExpr
