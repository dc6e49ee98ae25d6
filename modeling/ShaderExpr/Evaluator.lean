import ShaderExpr.Evaluator.Builtin
import ShaderExpr.Block
import ShaderExpr.Table
import ShaderExpr.Text.Blank

/-!
# Evaluation

An evaluator holds named values and user functions. It evaluates trees, and runs blocks: the values of
the inputs are taken from outside, then the declarations are evaluated in order.

Whether evaluation ends depends on the shapes only. A chain of calls longer than there are functions
enters some function twice with arguments of the same shapes, so it never ends; evaluation then gives
the fault `endless`.
-/

namespace ShaderExpr

/-- The numbers between the parentheses of a literal. -/
def Literal.fields (text : String) (cs : List Char) : Except Error (List Value) :=
  (Text.splitChars ',' cs).mapM fun field =>
    let s := String.ofList (Text.trimChars field)
    match Binary32.read s with
    | .ok x => .ok (Value.ofFloat x)
    | .error flaw => .error (.within (.literal text) (.cause (.numeral s flaw)))

/-- The value of a literal: a number, or a constructor of numbers. -/
def Literal.value (text : String) : Except Error Value :=
  let cs := text.toList
  let head := cs.takeWhile (· != '(')
  match cs.dropWhile (· != '(') with
  | [] =>
    match Binary32.read text with
    | .ok x => .ok (Value.ofFloat x)
    | .error flaw => .error (.cause (.numeral text flaw))
  | _ :: body =>
    if body.getLast? != some ')' then .error (.cause (.unterminatedLiteral text))
    else
      let name := String.ofList head
      match Shape.ofName? name with
      | none => .error (.cause (.unknownShape name))
      | some s => do
        let args ← fields text body.dropLast
        Value.construct s args

/-- Named values. -/
abbrev Env := Table Value

/-- The value of a variable. -/
def Env.lookup (env : Env) (name : String) : Except Error Value :=
  match env.get? name with
  | some v => .ok v
  | none => .error (.cause (.unknownName name))

namespace Node

mutual

/-- The value of a tree. User functions, which `call` knows by name, come before the built-in ones. -/
def eval (a : Arith) (call : String → Option (List Value → Outcome Value)) (env : Env) :
    Node → Outcome Value
  | .literal text => Outcome.ofError (Literal.value text)
  | .var name => Outcome.ofError (env.lookup name)
  | .unary op x => do
    let x ← eval a call env x
    Outcome.ofError (Value.unary a op x)
  | .binary op x y => do
    let x ← eval a call env x
    let y ← eval a call env y
    Outcome.ofError (Value.binary a op x y)
  | .call f args => do
    let args ← evals a call env args
    match call f with
    | some run => run args
    | none => Outcome.ofError (Builtin.call a f args)
  | .missing => Outcome.fail .missingNode

/-- The values of trees, from the left. -/
def evals (a : Arith) (call : String → Option (List Value → Outcome Value)) (env : Env) :
    List Node → Outcome (List Value)
  | [] => .ok []
  | n :: ns => do
    let v ← eval a call env n
    let vs ← evals a call env ns
    return v :: vs

end

end Node

namespace Function

/-- The environment of a function's parameters, if the arguments have their types. -/
def bindArguments (fn : Function) : List Param → List Value → Env → Except Error Env
  | p :: ps, v :: vs, env =>
    if v.shape.name = p.type then fn.bindArguments ps vs (env.insert p.name v)
    else .error (.cause (.parameterShape fn.name p.name p.type v.shape))
  | _, _, env => .ok env

/-- Evaluates the declarations of a function in order. -/
def runBody (fn : Function) (eval : Env → Node → Outcome Value) : List Statement → Env → Outcome Env
  | [], env => .ok env
  | st :: sts, env => do
    let v ← Outcome.inside (.function fn.name) (eval env st.value)
    fn.runBody eval sts (env.insert st.name v)

/-- Runs a function on arguments, with a way to evaluate trees in its environment. -/
def run (fn : Function) (eval : Env → Node → Outcome Value) (args : List Value) : Outcome Value := do
  if args.length ≠ fn.params.length then
    Outcome.fail (.argumentCount fn.name fn.params.length args.length)
  let env ← Outcome.ofError (fn.bindArguments fn.params args .empty)
  let env ← fn.runBody eval fn.body env
  eval env fn.result

/-- Calls the function with a name, if there is one; calls may nest to some depth. -/
def callAt (a : Arith) (fns : Table Function) : Nat → String → Option (List Value → Outcome Value)
  | 0, name => (fns.get? name).map fun _ _ => .error (.fault .endless)
  | depth + 1, name => (fns.get? name).map fun fn => fn.run (Node.eval a (callAt a fns depth))

end Function

/-- Named values and user functions. -/
structure Evaluator where
  env : Env
  functions : Table Function
deriving Repr, Inhabited

namespace Evaluator

def empty : Evaluator := ⟨.empty, .empty⟩

/-- How deep calls may nest: once more than there are functions, so that a deeper call repeats one. -/
def depth (fns : Table Function) : Nat := fns.entries.length + 1

/-- The value of a tree in an environment. -/
def evalIn (a : Arith) (fns : Table Function) (env : Env) (n : Node) : Outcome Value :=
  n.eval a (Function.callAt a fns (depth fns)) env

/-- The value of a tree. -/
def eval (a : Arith) (ev : Evaluator) (n : Node) : Outcome Value := evalIn a ev.functions ev.env n

/-- Adds a function, or replaces the one of its name. -/
def define (ev : Evaluator) (fn : Function) : Except Error Evaluator := do
  fn.check
  return { ev with functions := ev.functions.insert fn.name fn }

/-- Adds functions in order. -/
def defineAll (ev : Evaluator) (fns : List Function) : Except Error Evaluator := fns.foldlM define ev

/-- Gives a variable a value. -/
def set (ev : Evaluator) (name : String) (v : Value) : Evaluator :=
  { ev with env := ev.env.insert name v }

def lookup (ev : Evaluator) (name : String) : Except Error Value := ev.env.lookup name

/-- Takes the values of inputs into an environment, as far as they are there with their shapes. -/
def takeInputs (values : Table Value) : List Input → Env → Env × Outcome Unit
  | [], env => (env, .ok ())
  | i :: is, env =>
    match values.get? i.name with
    | none => (env, Outcome.fail (.missingInput i.name))
    | some v =>
      if v.shape = i.shape then takeInputs values is (env.insert i.name v)
      else (env, Outcome.fail (.inputShape i.name i.shape v.shape))

/-- Evaluates declarations in order, as far as they have values of their shapes. -/
def runDeclarations (a : Arith) (fns : Table Function) :
    List Declaration → Env → Env × Outcome Unit
  | [], env => (env, .ok ())
  | d :: ds, env =>
    match evalIn a fns env d.value with
    | .error e => (env, .error (e.within (.evaluating d.name)))
    | .ok v =>
      if v.shape = d.shape then runDeclarations a fns ds (env.insert d.name v)
      else (env, Outcome.fail (.statementShape d.name d.shape v.shape))

/-- Runs a block from an empty environment. The environment afterwards holds what was evaluated
before the first failure. -/
def runBlock (a : Arith) (fns : Table Function) (b : Block) (values : Table Value) :
    Env × Outcome Unit :=
  match takeInputs values b.inputs .empty with
  | (env, .error e) => (env, .error e)
  | (env, .ok ()) => runDeclarations a fns b.declarations env

/-- Forgets all values and runs a block. -/
def run (a : Arith) (ev : Evaluator) (b : Block) (values : Table Value) : Evaluator × Outcome Unit :=
  let (env, result) := runBlock a ev.functions b values
  ({ ev with env := env }, result)

/-- The value of a block's result, on an evaluator without functions. -/
def evaluate (a : Arith) (b : Block) (values : Table Value) : Outcome Value :=
  match empty.run a b values with
  | (_, .error e) => .error e
  | (ev, .ok ()) => Outcome.ofError (ev.lookup returnName)

end Evaluator

end ShaderExpr
