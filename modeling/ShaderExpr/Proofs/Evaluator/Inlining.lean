import ShaderExpr.Proofs.Evaluator.Soundness
import ShaderExpr.Proofs.Node

/-!
# Declarations mean their inlined definitions

A block computes each declaration once and refers to it by name afterwards. That is a matter of economy
and not of meaning: the value of a declaration is the value of one tree over the inputs alone, in which
the names of earlier declarations have given way to their trees.

* **`Node.replace`** — a tree with another in place of a variable.
* **`Node.eval_replace`** — replacing a variable by a tree that has its value changes no evaluation.
* **`Node.inline`** — a tree with the trees of declarations in place of their names, the last
  declaration first, since its tree may name the ones before it.
* **`Evaluates.eval_inline`** — evaluation after declarations is evaluation of the inlined tree before
  them.
* **`Evaluator.run_inlines`** — what a run leaves for each declaration is what its inlined tree evaluates
  to over the inputs.
-/

namespace ShaderExpr

/-! ## Replacing a variable -/

namespace Node

mutual

/-- The tree with another in place of a variable. -/
def replace (name : String) (m : Node) : Node → Node
  | .literal s => .literal s
  | .var s => if s = name then m else .var s
  | .call f args => .call f (replaces name m args)
  | .unary op x => .unary op (replace name m x)
  | .binary op x y => .binary op (replace name m x) (replace name m y)
  | .missing => .missing

/-- The trees with another in place of a variable. -/
def replaces (name : String) (m : Node) : List Node → List Node
  | [] => []
  | n :: ns => replace name m n :: replaces name m ns

end

variable {a : Arith} {call : String → Option (List Value → Outcome Value)} {env : Env}

/-- Arguments that keep their values one by one keep them together. -/
theorem evals_replaces {name : String} {m : Node} {v : Value} {ns : List Node}
    (h : ∀ n ∈ ns, (replace name m n).eval a call env = n.eval a call (env.insert name v)) :
    evals a call env (replaces name m ns) = evals a call (env.insert name v) ns := by
  induction ns with
  | nil => rw [replaces, evals, evals]
  | cons n ns ih =>
      rw [replaces, evals, evals, h n List.mem_cons_self,
        ih fun k hk => h k (List.mem_cons_of_mem _ hk)]

/-- **Substitution.** A tree evaluates with a value under a name as it does with a tree of that
value in place of the name, be it to a value or to an error. Trees bind no names, so nothing can be
captured. -/
theorem eval_replace {name : String} {m : Node} {v : Value} (hm : m.eval a call env = .ok v)
    (n : Node) : (replace name m n).eval a call env = n.eval a call (env.insert name v) := by
  induction n using Node.induction with
  | literal s => rw [replace, eval, eval]
  | var s =>
      rw [replace, eval, Env.lookup, Table.get?_insert]
      -- the variable that is replaced, or another, which the new binding does not change
      by_cases hs : s = name
      · rw [if_pos hs, if_pos hs.symm, hm]
        rfl
      · rw [if_neg hs, if_neg (Ne.symm hs), eval, Env.lookup]
  | call f args ih => rw [replace, eval, eval, evals_replaces ih]
  | unary op x ih => rw [replace, eval, eval, ih]
  | binary op x y ihx ihy => rw [replace, eval, eval, ihx, ihy]
  | missing => rw [replace, eval, eval]

/-! ## Evaluation depends on the values under names only -/

theorem evals_congr {env' : Env} {ns : List Node}
    (h : ∀ n ∈ ns, n.eval a call env = n.eval a call env') :
    evals a call env ns = evals a call env' ns := by
  induction ns with
  | nil => rw [evals, evals]
  | cons n ns ih =>
      rw [evals, evals, h n List.mem_cons_self, ih fun k hk => h k (List.mem_cons_of_mem _ hk)]

/-- Evaluation looks names up and does nothing else with the environment. -/
theorem eval_congr {env' : Env} (h : ∀ name, env.get? name = env'.get? name) (n : Node) :
    n.eval a call env = n.eval a call env' := by
  induction n using Node.induction with
  | literal s => rw [eval, eval]
  | var s => rw [eval, eval, Env.lookup, Env.lookup, h]
  | call f args ih => rw [eval, eval, evals_congr ih]
  | unary op x ih => rw [eval, eval, ih]
  | binary op x y ihx ihy => rw [eval, eval, ihx, ihy]
  | missing => rw [eval, eval]

/-- The tree with the trees of declarations in place of their names. The last declaration goes first:
its tree may name earlier ones, which are replaced after it. -/
def inline (ds : List Declaration) (n : Node) : Node :=
  ds.foldr (fun d n => replace d.name d.value n) n

end Node

/-! ## Runs of declarations -/

namespace Evaluates

variable {eval : Env → Node → Outcome Value} {env env' : Env} {ds : List Declaration}

/-- A run through a list of declarations passes the state before each of them. -/
theorem split {pre post : List Declaration} {d : Declaration}
    (h : Evaluates eval env (pre ++ d :: post) env') :
    ∃ mid v, Evaluates eval env pre mid ∧ eval mid d.value = .ok v ∧
      Evaluates eval (mid.insert d.name v) post env' := by
  induction pre generalizing env with
  | nil =>
      cases h with
      | cons hv _ hrest => exact ⟨env, _, .nil, hv, hrest⟩
  | cons p pre ih =>
      cases h with
      | cons hv hshape hrest =>
          obtain ⟨mid, v, hpre, hd, hpost⟩ := ih hrest
          exact ⟨mid, v, .cons hv hshape hpre, hd, hpost⟩

/-- A run changes the values under the names that it declares, and no other. -/
theorem get?_eq {name : String} (h : Evaluates eval env ds env')
    (hname : name ∉ ds.map Declaration.name) : env'.get? name = env.get? name := by
  induction h with
  | nil => rfl
  | @cons env env' d ds v _ _ _ ih =>
      rw [List.map_cons, List.mem_cons, not_or] at hname
      rw [ih hname.2, Table.get?_insert, if_neg (Ne.symm hname.1)]

/-- Evaluation after declarations is evaluation of the inlined tree before them. Induction on the
run; the first declaration is replaced last, in a tree that has no later names any more. -/
theorem eval_inline {a : Arith} {call : String → Option (List Value → Outcome Value)}
    (h : Evaluates (Node.eval a call) env ds env') (n : Node) :
    (n.inline ds).eval a call env = n.eval a call env' := by
  induction h with
  | nil => rfl
  | @cons env env' d ds v hv _ _ ih =>
      show (Node.replace d.name d.value (n.inline ds)).eval a call env = _
      rw [Node.eval_replace hv, ih]

end Evaluates

namespace Evaluator

/-- A run of declarations that ends without failure evaluated each of them. -/
theorem evaluates_of_runDeclarations {a : Arith} {fns : Table Function} {ds : List Declaration}
    {env env' : Env} (h : runDeclarations a fns ds env = (env', .ok ())) :
    Evaluates (evalIn a fns) env ds env' := by
  induction ds generalizing env with
  | nil =>
      cases h
      exact .nil
  | cons d ds ih =>
      unfold runDeclarations at h
      split at h
      · cases h
      · next v hv =>
          split at h
          · -- a run goes on only after a value of the declared shape
            next hshape => exact .cons hv hshape (ih h)
          · cases h

/-! ## Inputs -/

/-- The environment holds the values of the inputs and nothing else. -/
def HoldsInputs (env : Env) (is : List Input) (values : Table Value) : Prop :=
  ∀ name, env.get? name = if name ∈ is.map Input.name then values.get? name else none

/-- Taking inputs that are all there adds their values to an environment. Induction on the inputs: a
name that repeats has the same value each time. -/
theorem get?_of_takeInputs {values : Table Value} {is : List Input} {env env' : Env}
    (h : takeInputs values is env = (env', .ok ())) (name : String) :
    env'.get? name = if name ∈ is.map Input.name then values.get? name else env.get? name := by
  induction is generalizing env with
  | nil =>
      cases h
      rfl
  | cons i is ih =>
      unfold takeInputs at h
      split at h
      · cases h
      · next v hv =>
          split at h
          · rw [ih h, Table.get?_insert, List.map_cons]
            -- an input of the name later on, this one, or none
            by_cases hmem : name ∈ is.map Input.name
            · rw [if_pos hmem, if_pos (List.mem_cons_of_mem _ hmem)]
            · by_cases hname : i.name = name
              · rw [if_neg hmem, if_pos hname, if_pos (hname ▸ List.mem_cons_self), ← hname, hv]
              · rw [if_neg hmem, if_neg hname, if_neg]
                rw [List.mem_cons, not_or]
                exact ⟨Ne.symm hname, hmem⟩
          · cases h

theorem holdsInputs_of_takeInputs {values : Table Value} {is : List Input} {env : Env}
    (h : takeInputs values is .empty = (env, .ok ())) : HoldsInputs env is values :=
  get?_of_takeInputs h

/-- A run that ends without failure took the inputs and evaluated the declarations. -/
theorem runBlock_eq_ok {a : Arith} {fns : Table Function} {b : Block} {values : Table Value}
    (h : (runBlock a fns b values).2 = .ok ()) :
    ∃ env, HoldsInputs env b.inputs values ∧
      Evaluates (evalIn a fns) env b.declarations (runBlock a fns b values).1 := by
  unfold runBlock at h ⊢
  split at h
  · cases h
  · next env htake =>
      refine ⟨env, holdsInputs_of_takeInputs htake, evaluates_of_runDeclarations ?_⟩
      exact Prod.ext rfl h

/-- **Declarations mean their inlined definitions.** Where a block runs without failure, the value that
the run leaves for a declaration is the value of its tree, with the trees of the declarations before it
in place of their names, in an environment that holds the inputs of the block and nothing else. The
functions are the same, whatever they are. -/
theorem run_inlines {b : Block} (hb : b.Reachable) {a : Arith} {ev : Evaluator} {values : Table Value}
    (hrun : (ev.run a b values).2 = .ok ()) {env : Env} (henv : HoldsInputs env b.inputs values)
    {k : Nat} {d : Declaration} (hd : b.declarations[k]? = some d) :
    ∃ v, (ev.run a b values).1.lookup d.name = .ok v ∧
      eval a ⟨env, ev.functions⟩ (d.value.inline (b.declarations.take k)) = .ok v := by
  have hblock : (runBlock a ev.functions b values).2 = .ok () := hrun
  obtain ⟨start, hstart, hrun⟩ := runBlock_eq_ok hblock
  -- the declaration in its place, between those that are inlined and those that come after
  have hsplit : b.declarations = b.declarations.take k ++ d :: b.declarations.drop (k + 1) := by
    obtain ⟨hk, rfl⟩ := List.getElem?_eq_some_iff.mp hd
    rw [List.getElem_cons_drop, List.take_append_drop]
  have hnodup : (b.declarations.map Declaration.name).Nodup := by
    have h := hb.consistent.nodup
    rw [hb.consistent.names_eq] at h
    exact (List.nodup_append.mp h).2.1
  rw [hsplit] at hrun hnodup
  obtain ⟨mid, v, hpre, hv, hpost⟩ := hrun.split
  refine ⟨v, ?_, ?_⟩
  · -- no later declaration has the name
    have hlater : d.name ∉ (b.declarations.drop (k + 1)).map Declaration.name := by
      rw [List.map_append, List.map_cons] at hnodup
      exact (List.nodup_cons.mp (List.nodup_append.mp hnodup).2.1).1
    show (runBlock a ev.functions b values).1.lookup d.name = _
    rw [Env.lookup, hpost.get?_eq hlater, Table.get?_insert, if_pos rfl]
  · -- the inputs are the same values, however the environment keeps them
    have hsame : ∀ name, env.get? name = start.get? name := fun name =>
      (henv name).trans (hstart name).symm
    show Node.eval a _ env _ = _
    rw [Node.eval_congr hsame, Evaluates.eval_inline hpre]
    exact hv

/-- A block that calls `square` once and multiplies the result by itself. -/
def squareTwice : Block :=
  ((Block.empty.withInput "x" .float).withDeclaration "y"
    ⟨.float, .call "square" [.var "x"]⟩).withDeclaration "returns"
      ⟨.float, .binary "*" (.var "y") (.var "y")⟩

/-- What is declared once and used twice is computed twice in the inlined tree, to the same
value. -/
theorem run_inlines_squareTwice :
    squareTwice.Reachable ∧ ∀ a : Arith,
      (run a ⟨.empty, ⟨[("square", square)]⟩⟩ squareTwice ⟨[("x", .zero .float)]⟩).2 = .ok () ∧
      ∃ v, (run a ⟨.empty, ⟨[("square", square)]⟩⟩ squareTwice
          ⟨[("x", .zero .float)]⟩).1.lookup "returns" = .ok v ∧
        eval a ⟨⟨[("x", .zero .float)]⟩, ⟨[("square", square)]⟩⟩
          (.binary "*" (.call "square" [.var "x"]) (.call "square" [.var "x"])) = .ok v := by
  have hinput : (Block.empty.withInput "x" .float).Reachable :=
    @Block.Reachable.ofRequests [⟨"x", Shape.float.code⟩] _ rfl
  have hreachable : squareTwice.Reachable :=
    .define (.define hinput
      (some fun _ => ⟨[], [⟨"y", some ⟨.float, .call "square" [.var "x"]⟩⟩], none⟩))
      (some fun _ => ⟨[], [⟨"returns", some ⟨.float, .binary "*" (.var "y") (.var "y")⟩⟩], none⟩)
  refine ⟨hreachable, fun a => ⟨rfl, ?_⟩⟩
  have henv : HoldsInputs ⟨[("x", .zero .float)]⟩ squareTwice.inputs ⟨[("x", .zero .float)]⟩ := by
    intro name
    -- the one input has its value, and no other name has one
    by_cases hname : name = "x"
    · rw [hname]
      rfl
    · have hother : name ∉ squareTwice.inputs.map Input.name := mt List.mem_singleton.mp hname
      rw [if_neg hother]
      exact if_neg (Ne.symm hname)
  exact @run_inlines squareTwice hreachable a ⟨.empty, ⟨[("square", square)]⟩⟩ _ rfl _ henv 1 _ rfl

end Evaluator

end ShaderExpr
