import ShaderExpr.Evaluator
import ShaderExpr.Proofs.Descent
import ShaderExpr.Proofs.Node
import ShaderExpr.Proofs.Outcome

/-!
# Evaluation without recursion

A fault of evaluation is a call that goes on without end. It comes from a tree that holds a call, the call
from a function, and the fault in there from a call in one of the trees of the function. Calls may nest once
more than there are functions. So behind a fault there is a function that calls itself, directly or through
others.

* **`Node.exists_call_of_fault`** — where the fault of a tree comes from.
* **`Table.Recursive`** — some function calls itself, as far as the trees of functions tell.
* **`Evaluator.run_faultless`** — where no function does, a run ends.
-/

namespace ShaderExpr

open Relation (TransGen)

variable {a : Arith} {f : Fault}

/-! ## Where faults come from -/

namespace Node

variable {call : String → Option (List Value → Outcome Value)} {env : Env}

theorem exists_mem_of_evals_fault {ns : List Node} (h : evals a call env ns = .error (.fault f)) :
    ∃ n ∈ ns, n.eval a call env = .error (.fault f) := by
  induction ns with
  | nil =>
      rw [evals] at h
      cases h
  | cons n ns ih =>
      rw [evals] at h
      rcases bind_eq_fault_iff.mp h with h | ⟨v, _, h⟩
      · exact ⟨n, List.mem_cons_self, h⟩
      · rcases bind_eq_fault_iff.mp h with h | ⟨vs, _, h⟩
        · obtain ⟨m, hm, h⟩ := ih h
          exact ⟨m, List.mem_cons_of_mem _ hm, h⟩
        · cases h

/-- A tree is at fault where one of its calls is, since literals, variables and operators only fail
with errors. Induction over the tree, down to the call. -/
theorem exists_call_of_fault {n : Node} (h : n.eval a call env = .error (.fault f)) :
    ∃ c ∈ n.calls, ∃ run vs, call c.1 = some run ∧ run vs = .error (.fault f) := by
  induction n using Node.induction with
  | literal s =>
      rw [eval] at h
      exact absurd h Outcome.ofError_ne_fault
  | var s =>
      rw [eval] at h
      exact absurd h Outcome.ofError_ne_fault
  | call g args ih =>
      rw [eval] at h
      rw [calls]
      rcases bind_eq_fault_iff.mp h with h | ⟨vs, _, h⟩
      · obtain ⟨m, hm, h⟩ := exists_mem_of_evals_fault h
        obtain ⟨c, hc, hfault⟩ := ih m hm h
        exact ⟨c, List.mem_cons_of_mem _ (mem_callsAll.mpr ⟨m, hm, hc⟩), hfault⟩
      · -- all arguments have values: either a function is at fault on them, or something built in,
        -- which is not
        split at h
        · next run hrun => exact ⟨_, List.mem_cons_self, run, vs, hrun, h⟩
        · exact absurd h Outcome.ofError_ne_fault
  | unary op x ih =>
      rw [eval] at h
      rcases bind_eq_fault_iff.mp h with h | ⟨v, _, h⟩
      · exact ih h
      · exact absurd h Outcome.ofError_ne_fault
  | binary op x y ihx ihy =>
      rw [eval] at h
      rw [calls]
      rcases bind_eq_fault_iff.mp h with h | ⟨v, _, h⟩
      · obtain ⟨c, hc, hfault⟩ := ihx h
        exact ⟨c, List.mem_append_left _ hc, hfault⟩
      · rcases bind_eq_fault_iff.mp h with h | ⟨w, _, h⟩
        · obtain ⟨c, hc, hfault⟩ := ihy h
          exact ⟨c, List.mem_append_right _ hc, hfault⟩
        · exact absurd h Outcome.ofError_ne_fault
  | missing =>
      rw [eval] at h
      cases h

end Node

namespace Function

variable {fn : Function} {eval : Env → Node → Outcome Value}

/-- The trees of a function. -/
def trees (fn : Function) : List Node := fn.body.map Statement.value ++ [fn.result]

/-- A body is at fault where one of its statements is, in the environment that it has come to by
then. -/
theorem exists_mem_of_runBody_fault {sts : List Statement} {env : Env}
    (h : fn.runBody eval sts env = .error (.fault f)) :
    ∃ st ∈ sts, ∃ env, eval env st.value = .error (.fault f) := by
  induction sts generalizing env with
  | nil => cases h
  | cons st sts ih =>
      rcases bind_eq_fault_iff.mp h with h | ⟨v, _, h⟩
      · exact ⟨st, List.mem_cons_self, env, Outcome.inside_eq_fault_iff.mp h⟩
      · obtain ⟨st', hst', h⟩ := ih h
        exact ⟨st', List.mem_cons_of_mem _ hst', h⟩

/-- A function is at fault where one of its trees is: taking arguments only fails with errors. -/
theorem exists_tree_of_fault {vs : List Value} (h : fn.run eval vs = .error (.fault f)) :
    ∃ n ∈ fn.trees, ∃ env, eval env n = .error (.fault f) := by
  unfold run at h
  split at h
  · cases h
  · rcases bind_eq_fault_iff.mp h with h | ⟨env, _, h⟩
    · exact absurd h Outcome.ofError_ne_fault
    · rcases bind_eq_fault_iff.mp h with h | ⟨env', _, h⟩
      · obtain ⟨st, hst, hfault⟩ := exists_mem_of_runBody_fault h
        exact ⟨st.value, List.mem_append_left _ (List.mem_map_of_mem hst), hfault⟩
      · exact ⟨fn.result, List.mem_append_right _ (List.mem_singleton_self _), env', h⟩

end Function

/-! ## Functions that call themselves -/

namespace Table

/-- There is a function of the first name, and a call of the second in one of its trees. -/
def Calls (fns : Table Function) (g g' : String) : Prop :=
  ∃ fn, fns.get? g = some fn ∧ ∃ n ∈ fn.trees, ∃ c ∈ n.calls, c.1 = g'

/-- Some function calls itself, directly or through others. -/
def Recursive (fns : Table Function) : Prop := ∃ g, TransGen fns.Calls g g

theorem not_recursive_empty : ¬ (empty : Table Function).Recursive := by
  rintro ⟨g, hg⟩
  obtain ⟨_, ⟨fn, hfn, _⟩, _⟩ := TransGen.head'_iff.mp hg
  cases hfn

/-- Functions that call only what ranks lower do not call themselves. The rank gets smaller along
any chain of calls. -/
theorem not_recursive_of_rank {fns : Table Function} (rank : String → Nat)
    (h : ∀ e ∈ fns.entries, ∀ n ∈ e.2.trees, ∀ c ∈ n.calls, rank c.1 < rank e.1) : ¬ fns.Recursive := by
  have hcall : ∀ g g', fns.Calls g g' → rank g' < rank g := by
    rintro g _ ⟨fn, hfn, n, hn, c, hc, rfl⟩
    exact h (g, fn) (mem_of_find?_eq_some hfn) n hn c hc
  -- induction on the chain of calls
  have hcalls : ∀ g g', TransGen fns.Calls g g' → rank g' < rank g := by
    intro g g' hpath
    induction hpath with
    | single h => exact hcall _ _ h
    | tail _ h ih => exact (hcall _ _ h).trans ih
  rintro ⟨g, hcycle⟩
  exact lt_irrefl _ (hcalls g g hcycle)

end Table

namespace Evaluator

variable {fns : Table Function}

/-- Some call of the function is at fault, if calls may nest to the depth. -/
def CallFaults (a : Arith) (fns : Table Function) (f : Fault) (depth : Nat) (g : String) : Prop :=
  ∃ run vs, Function.callAt a fns depth g = some run ∧ run vs = .error (.fault f)

/-- Only functions of the table can be called, at any depth. -/
theorem CallFaults.mem_names {depth : Nat} {g : String} (h : CallFaults a fns f depth g) : g ∈ fns.names := by
  obtain ⟨run, _, hrun, _⟩ := h
  cases depth with
  | zero =>
      obtain ⟨fn, hfn, _⟩ := Option.map_eq_some_iff.mp hrun
      exact Table.mem_names_of_get? hfn
  | succ depth =>
      obtain ⟨fn, hfn, _⟩ := Option.map_eq_some_iff.mp hrun
      exact Table.mem_names_of_get? hfn

/-- A call that is at fault makes another that is, one level deeper. -/
theorem CallFaults.exists_calls {depth : Nat} {g : String} (h : CallFaults a fns f (depth + 1) g) :
    ∃ g', fns.Calls g g' ∧ CallFaults a fns f depth g' := by
  obtain ⟨run, vs, hrun, hfault⟩ := h
  obtain ⟨fn, hfn, rfl⟩ := Option.map_eq_some_iff.mp hrun
  obtain ⟨n, hn, env, hfault⟩ := Function.exists_tree_of_fault hfault
  obtain ⟨c, hc, hfault⟩ := Node.exists_call_of_fault hfault
  exact ⟨c.1, ⟨fn, hfn, n, hn, c, hc, rfl⟩, hfault⟩

/-- **Without recursion every evaluation ends.** A fault leads from call to call through all levels,
and there are more levels than functions, so one of them is passed twice. -/
theorem evalIn_faultless (hfns : ¬ fns.Recursive) (a : Arith) (env : Env) (n : Node) :
    (evalIn a fns env n).Faultless := by
  intro f h
  obtain ⟨c, _, hfault⟩ := Node.exists_call_of_fault h
  -- from the call in the tree, calls at fault lead down through all levels, and there are more levels than names
  have hdepth : fns.names.length ≤ depth fns := by simp [Table.names, depth]
  obtain ⟨g, _, hcycle⟩ := exists_cycle_of_descent (P := CallFaults a fns f) fns.names
    (fun _ _ => CallFaults.mem_names) (fun _ _ => CallFaults.exists_calls) hdepth hfault
  exact hfns ⟨g, hcycle⟩

/-! ## Runs -/

/-- Inputs are refused with errors, by name or by shape. -/
theorem takeInputs_faultless (values : Table Value) (is : List Input) (env : Env) :
    (takeInputs values is env).2.Faultless := by
  induction is generalizing env with
  | nil => exact Outcome.faultless_ok _
  | cons i is ih =>
      unfold takeInputs
      split
      · exact Outcome.faultless_error _
      · split
        · exact ih _
        · exact Outcome.faultless_error _

/-- Declarations are evaluated one after the other, each without a fault. -/
theorem runDeclarations_faultless (hfns : ¬ fns.Recursive) (a : Arith) (ds : List Declaration) (env : Env) :
    (runDeclarations a fns ds env).2.Faultless := by
  induction ds generalizing env with
  | nil => exact Outcome.faultless_ok _
  | cons d ds ih =>
      unfold runDeclarations
      cases hv : evalIn a fns env d.value with
      | error failure =>
          cases failure with
          | error e => exact Outcome.faultless_error _
          | fault f => exact absurd hv (evalIn_faultless hfns a env d.value f)
      | ok v =>
          simp only
          split
          · exact ih _
          · exact Outcome.faultless_error _

/-- **Without recursion every run ends,** whatever the block and the values. A run takes inputs and
then evaluates declarations, and neither is at fault. -/
theorem run_faultless {ev : Evaluator} (hfns : ¬ ev.functions.Recursive) (a : Arith) (b : Block)
    (values : Table Value) : (ev.run a b values).2.Faultless := by
  change (runBlock a ev.functions b values).2.Faultless
  unfold runBlock
  have htake := takeInputs_faultless values b.inputs .empty
  split
  · next h =>
      rw [h] at htake
      exact htake
  · exact runDeclarations_faultless hfns a _ _

end Evaluator

end ShaderExpr
