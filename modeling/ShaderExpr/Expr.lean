import ShaderExpr.Literal
import ShaderExpr.Program

/-!
# Typed expressions

An expression is a tree together with its shape. Applying an operation checks the shapes of its
operands against the catalog, and calling a function checks them against its parameters; the tree of
the result is then built without further checks. An operand that may be absent is an `Option`.
-/

namespace ShaderExpr

/-- The tree of an operation on a receiver and operands, written as the catalog says. -/
def Operation.build (op : Operation) (recv : Node) (args : List Node) : Node :=
  match op.entry.form with
  | .call => .call op.symbol (recv :: args)
  | .callLast => .call op.symbol (args ++ [recv])
  | .between => .binary op.symbol recv (args.headD .missing)
  | .before => .unary op.symbol recv

/-- A typed expression. -/
structure Expr where
  shape : Shape
  node : Node
deriving Repr, Inhabited

namespace Expr

/-- A reference to a variable. -/
def var (name : String) (shape : Shape) : Expr := ⟨shape, .var name⟩

/-- A reference to a variable whose shape is given by number. -/
def varOfCode (name : String) (code : ShapeCode) : Except Fault Expr :=
  match code.shape? with
  | some s => .ok (var name s)
  | none => .error (.invalidShape code.number)

/-- The expression of a shape that was never given a tree. -/
def unset (shape : Shape) : Expr := ⟨shape, .missing⟩

/-- A literal of a shape; matrix components are given row by row. -/
def literalOf (shape : Shape) (comps : List Binary32) : Expr :=
  ⟨shape, .literal (Literal.shapeText shape comps)⟩

/-- A literal with as many components as its shape has. -/
def literal (code : ShapeCode) (comps : List Binary32) : Outcome Expr :=
  match code.shape? with
  | none => Outcome.fail (.invalidLiteralShape code.number)
  | some s =>
    if comps.length = s.arity then do
      let text ← Outcome.ofFault (Literal.sizedText s comps)
      return ⟨s, .literal text⟩
    else Outcome.fail (.literalSize s comps.length)

theorem literal_code {s : Shape} {comps : List Binary32} (hlength : comps.length = s.arity) :
    literal s.code comps = .ok (literalOf s comps) := by
  unfold literal
  simp only [Shape.shape?_code, hlength, if_true, Literal.sizedText_eq hlength]
  rfl

/-- A literal with all components equal. -/
def splat (shape : Shape) (x : Binary32) : Expr :=
  ⟨shape, .literal (Literal.vectorText shape.name (List.replicate shape.arity x))⟩

/-- Compares operands with the shapes that an operation wants, from an index on. -/
def checkOperands (op : OpCode) (recv : Shape) :
    Nat → List Shape → List (Option Expr) → Except Error (List Node)
  | i, want :: wants, arg :: args =>
    match arg with
    | none => .error (.cause (.missingOperand i op))
    | some e =>
      if e.shape = want then do
        let rest ← checkOperands op recv (i + 1) wants args
        return e.node :: rest
      else .error (.cause (.operandShape op recv i want e.shape))
  | _, _, _ => .ok []

/-- Applies an operation that the receiver may receive. -/
def applySignature (op : Operation) (sig : Signature) (recv : Expr) (args : List (Option Expr)) :
    Except Error Expr :=
  if args.length = sig.args.length then do
    let nodes ← checkOperands op.code recv.shape 0 sig.args args
    return ⟨sig.result, op.build recv.node nodes⟩
  else .error (.cause (.operandCount op.code recv.shape sig.args.length args.length))

/-- Applies an operation, checking receiver and operands against the catalog. -/
def apply (code : OpCode) (recv : Option Expr) (args : List (Option Expr)) : Except Error Expr :=
  match recv with
  | none => .error (.cause (.missingReceiver code))
  | some recv =>
    match code.op? with
    | none => .error (.cause (.unsupported code recv.shape))
    | some op =>
      match op.signature? recv.shape with
      | none => .error (.cause (.unsupported code recv.shape))
      | some sig => applySignature op sig recv args

/-- Applies the operation with a method name. There is a result only if the receiver has that method
and the operands have exactly the shapes of its signature. -/
def method? (name : String) (recv : Expr) (args : List Expr) : Option Expr := do
  let op ← Operation.ofMethod? name
  let sig ← op.signature? recv.shape
  if args.map Expr.shape = sig.args then
    some ⟨sig.result, op.build recv.node (args.map Expr.node)⟩
  else none

/-- The power to a literal exponent. -/
def powN (x : Expr) (exponent : Binary32) : Expr :=
  ⟨x.shape, Operation.pow.build x.node [(splat x.shape exponent).node]⟩

/-- Folds a method over elements from the left. -/
def fold? (name : String) (seed : Expr) (elems : List Expr) : Option Expr :=
  elems.foldlM (fun acc e => method? name acc [e]) seed

/-- Compares arguments with the parameters of a function, from an index on. -/
def checkArguments (function : String) :
    Nat → List Param → List (Option Expr) → Except Error (List Node)
  | i, p :: ps, arg :: args =>
    match arg with
    | none => .error (.within (.function function) (.cause (.missingArgument i)))
    | some e =>
      if e.shape.name = p.type then do
        let rest ← checkArguments function (i + 1) ps args
        return e.node :: rest
      else .error (.cause (.parameterShape function p.name p.type e.shape))
  | _, _, _ => .ok []

/-- A call of a function, checking its arguments against its parameters. -/
def call (fn : Function) (args : List (Option Expr)) : Except Error Expr :=
  match Shape.ofName? fn.returnType with
  | none => .error (.within (.function fn.name) (.cause (.unknownShape fn.returnType)))
  | some result =>
    if args.length = fn.params.length then do
      let nodes ← checkArguments fn.name 0 fn.params args
      return ⟨result, .call fn.name nodes⟩
    else .error (.cause (.argumentShapes fn.name fn.params.length args.length))

def text (e : Expr) : Except Fault String := e.node.text

end Expr

end ShaderExpr
