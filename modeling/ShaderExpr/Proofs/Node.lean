import ShaderExpr.Node

/-!
# Trees

The arguments of a call are a list of trees, so the recursion of a function on trees goes through a list.
Proofs follow it with one hypothesis for every argument.

* **`Node.induction`** — induction over trees.
* **`Node.calls`** — the calls in a tree.
-/

namespace ShaderExpr.Node

/-- Induction over trees, with the arguments of a call as a list. The recursor has a second motive
for the list; here it is fixed to "all elements". -/
@[elab_as_elim]
theorem induction {P : Node → Prop} (literal : ∀ s, P (.literal s)) (var : ∀ s, P (.var s))
    (call : ∀ f args, (∀ a ∈ args, P a) → P (.call f args)) (unary : ∀ op x, P x → P (.unary op x))
    (binary : ∀ op x y, P x → P y → P (.binary op x y)) (missing : P .missing) (n : Node) : P n := by
  refine @Node.rec P (fun args => ∀ a ∈ args, P a) literal var call unary binary missing nofun ?_ n
  intro a args ha hargs b hb
  rcases List.mem_cons.mp hb with rfl | hb
  · exact ha
  · exact hargs b hb

mutual

/-- The calls in a tree: what is called, and with how many arguments. -/
def calls : Node → List (String × Nat)
  | .call f args => (f, args.length) :: callsAll args
  | .unary _ x => calls x
  | .binary _ x y => calls x ++ calls y
  | .literal _ | .var _ | .missing => []

/-- The calls in trees. -/
def callsAll : List Node → List (String × Nat)
  | [] => []
  | n :: ns => calls n ++ callsAll ns

end

theorem mem_callsAll {ns : List Node} {c : String × Nat} :
    c ∈ callsAll ns ↔ ∃ n ∈ ns, c ∈ n.calls := by
  induction ns with
  | nil => simp [callsAll]
  | cons n ns ih => simp [callsAll, ih]

end ShaderExpr.Node
