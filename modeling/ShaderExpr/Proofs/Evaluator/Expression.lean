import Mathlib.Data.List.Forall2
import ShaderExpr.Proofs.Evaluator.Calling

/-!
# Values of expressions

An expression is a tree with a shape, and evaluates to a value of that shape if it is made from checked parts. Here
is what the ways to make an expression do with the values of the parts, whatever the parts are: a constructor
joins them, and an operation that the catalog allows computes with them.

* **`HasValue`** — an expression evaluates to a value of its shape.
* **`eval_constructor`** — the constructor of a shape.
* **`hasValue_apply`** — an operation.
-/

namespace ShaderExpr.Evaluator

/-- The expression evaluates to the value, which is of its shape. -/
def HasValue (a : Arith) (ev : Evaluator) (e : Expr) (v : Value) : Prop :=
  ev.eval a e.node = .ok v ∧ v.shape = e.shape

variable {a : Arith} {ev : Evaluator} {es : List Expr} {vs : List Value}

theorem shapes_of_hasValue (h : List.Forall₂ (ev.HasValue a) es vs) :
    vs.map Value.shape = es.map Expr.shape := by
  induction h with
  | nil => rfl
  | cons hv _ ih => rw [List.map_cons, List.map_cons, hv.2, ih]

theorem evals_of_hasValue (h : List.Forall₂ (ev.HasValue a) es vs) :
    Node.evals a (Function.callAt a ev.functions (depth ev.functions)) ev.env (es.map Expr.node) =
      .ok vs := by
  apply evals_eq_ok
  rw [List.forall₂_map_left_iff]
  exact h.imp fun _ _ hv => hv.1

/-- A call of a shape's name is one of its constructor, if no function has the name. Functions come
first when a call is evaluated. -/
theorem eval_constructor {s : Shape} (hname : ev.functions.get? s.name = none)
    (h : List.Forall₂ (ev.HasValue a) es vs) :
    ev.eval a (.call s.name (es.map Expr.node)) = Outcome.ofError (Value.construct s vs) := by
  have hcall : Function.callAt a ev.functions (depth ev.functions) s.name = none :=
    Library.callAt_eq_none hname _
  unfold eval evalIn
  rw [Node.eval, evals_of_hasValue h]
  simp only [bind, Except.bind, hcall, Builtin.call, Shape.ofName?_name]

/-- **An operation on expressions of the shapes of its signature** makes an expression, which has
the value that the operation computes on their values. Only operations that are written as calls may
be hidden by a function. -/
theorem hasValue_apply {op : Operation} {recv : Expr} {x : Value} {sig : Signature}
    (hsig : op.signature? recv.shape = some sig) (hshapes : es.map Expr.shape = sig.args)
    (hname : op.entry.form.isCall = true → ev.functions.get? op.symbol = none) (hrecv : ev.HasValue a recv x)
    (hargs : List.Forall₂ (ev.HasValue a) es vs) :
    ∃ e w, Expr.apply op.code (some recv) (es.map some) = .ok e ∧ e.shape = sig.result ∧
      op.compute a x vs = .ok w ∧ ev.HasValue a e w := by
  have hxsig : op.signature? x.shape = some sig := by
    rw [hrecv.2]
    exact hsig
  obtain ⟨w, hw, hshape⟩ := Operation.compute_yields a hxsig ((shapes_of_hasValue hargs).trans hshapes)
  have hlength : (es.map Expr.node).length = op.entry.args.length := by
    obtain ⟨_, rfl⟩ := Operation.signature?_eq_some_iff.mp hsig
    have h := congrArg List.length hshapes
    simpa using h
  refine ⟨_, w, Expr.apply_code hsig hshapes, rfl, hw, ?_, hshape⟩
  -- operators are no calls, and calls reach no function
  have hcall : op.entry.form.isCall = true →
      Function.callAt a ev.functions (depth ev.functions) op.symbol = none :=
    fun h => Library.callAt_eq_none (hname h) _
  show Node.eval a _ ev.env (op.build recv.node (es.map Expr.node)) = _
  rw [Node.eval_build hcall hrecv.1 (evals_of_hasValue hargs) hlength, hw]
  rfl

end ShaderExpr.Evaluator
