import ShaderExpr.Proofs.Evaluator.Inlining
import ShaderExpr.Proofs.Evaluator.Recursion
import ShaderExpr.Proofs.Evaluator.Shapes

/-!
# What a run leaves behind

A block says beforehand what the environment is after a run that succeeds: a value of the declared shape under
every declared name, and nothing else. Since that depends on shapes alone, a block that runs once runs from all
values of the right shapes.

The environment is also where evaluation looks for the result of a block. The block itself looks for it among its
declarations. These are the same place except for one name: an input may be called like the result, and then it
is in the environment and is no declaration.

* **`Evaluates.transfer`**, **`Evaluator.run_transfer`** — one run stands for all.
* **`Evaluator.lookup_run_iff`** — the environment after a run holds what the block declares.
* **`Evaluator.resultsAgree_iff`** — evaluation and the block agree on the result, unless an input is called like
  it.
-/

namespace ShaderExpr

/-! ## Shapes that a run checks -/

/-- There is a value of the right shape for each of some names. -/
def Holds (env : Env) (names : List Input) : Prop :=
  ∀ i ∈ names, ∃ v, env.get? i.name = some v ∧ v.shape = i.shape

/-- Conforming to a scope of inputs is holding a value of its shape for each of them, if no two
inputs share a name. -/
theorem Conforms.holds {env : Env} {is : List Input} (hnodup : (is.map Input.name).Nodup)
    (h : Conforms env (Scope.empty.bindAll is)) : Holds env is := by
  have hentries := Scope.entries_bindAll (s := .empty) hnodup
  -- the table lists the inputs in their order
  have hnames : (Scope.empty.bindAll is).table.names = is.map Input.name := by
    rw [Table.names, hentries, List.map_append, List.map_map]
    rfl
  intro i hi
  refine h i.name (.var i.name i.shape) ?_
  rw [Scope.get?_eq_table, Table.get?_eq_some_iff (by rwa [hnames]), hentries]
  exact List.mem_append_right _ (List.mem_map_of_mem hi)

namespace Evaluates

/-- Evaluation checks the shapes of declarations, so the environment after them conforms to the
scope with their names bound. -/
theorem conforms {eval : Env → Node → Outcome Value} {env env' : Env} {ds : List Declaration} {s : Scope}
    (h : Evaluates eval env ds env') (henv : Conforms env s) :
    Conforms env' (s.bindAll (ds.map Declaration.input)) := by
  induction h generalizing s with
  | nil => exact henv
  | @cons env env' d ds v hv hshape _ ih =>
      have hnext := henv.insert d.name v
      rw [hshape] at hnext
      exact ih hnext

/-- Declarations that evaluate once evaluate from all values of the same shapes, and with any lane
arithmetic. Induction on the run: values of the same shapes stay values of the same shapes. -/
theorem transfer {a : Arith} {fns : Table Function} {env env' env₁ : Env} {ds : List Declaration}
    (h : Evaluates (Evaluator.evalIn a fns) env ds env') (henv : env.SameShapes env₁) (a' : Arith) :
    ∃ env₁', Evaluates (Evaluator.evalIn a' fns) env₁ ds env₁' := by
  induction h generalizing env₁ with
  | nil => exact ⟨env₁, .nil⟩
  | @cons env env' d ds v hv hshape _ ih =>
      -- functions agree on shapes at every depth, whatever the arithmetic
      have hcalls := Function.callAt_agree a a' fns (Evaluator.depth fns)
      have hagree : Agree SameShape (Evaluator.evalIn a fns env d.value)
          (Evaluator.evalIn a' fns env₁ d.value) := Node.eval_agree hcalls henv d.value
      rw [hv] at hagree
      obtain ⟨w, hw, hsame⟩ := hagree.exists_ok
      obtain ⟨env₁', hrest⟩ := ih (henv.insert d.name hsame)
      have hwshape : w.shape = d.shape := hsame.symm.trans hshape
      exact ⟨env₁', .cons hw hwshape hrest⟩

end Evaluates

/-- The declarations of a block bind its scope. -/
theorem Block.Consistent.conforms {b : Block} (hb : b.Consistent) {eval : Env → Node → Outcome Value}
    {env env' : Env} (h : Evaluates eval env b.declarations env')
    (henv : Conforms env (Scope.empty.bindAll b.inputs)) : Conforms env' b.scope := by
  intro name e hget
  rw [← hb.get?_bindAll] at hget
  exact h.conforms henv name e hget

/-- A name is not both an input and declared. -/
theorem Block.Consistent.not_mem_declarations {b : Block} (hb : b.Consistent) {name : String}
    (h : name ∈ b.inputs.map Input.name) : name ∉ b.declarations.map Declaration.name := by
  have hnodup := hb.nodup
  rw [hb.names_eq] at hnodup
  exact fun hmem => (List.nodup_append.mp hnodup).2.2 name h name hmem rfl

/-- Unless an input is called like it, the result has a reference of the shape that it is declared
with. An input of that name is declared as well, but is no result. -/
theorem Block.Consistent.exists_returns_iff {b : Block} (hb : b.Consistent)
    (hinput : returnName ∉ b.inputs.map Input.name) {s : Shape} :
    (∃ e, b.returns = .ok e ∧ e.shape = s) ↔ b.Declares returnName s := by
  constructor
  · rintro ⟨e, he, rfl⟩
    obtain ⟨d, hd, hname, rfl⟩ := hb.returns_eq_ok_iff.mp he
    exact .inr ⟨d, hd, hname, rfl⟩
  · rintro (hi | ⟨d, hd, hname, rfl⟩)
    · exact absurd (List.mem_map_of_mem hi) hinput
    · exact ⟨_, hb.returns_eq_ok_iff.mpr ⟨d, hd, hname, rfl⟩, rfl⟩

namespace Evaluator

/-- Environments that hold the inputs hold the same shapes if the inputs do. -/
theorem HoldsInputs.sameShapes {is : List Input} {values values' : Table Value} {env env' : Env}
    (henv : HoldsInputs env is values) (henv' : HoldsInputs env' is values')
    (h : Holds values is) (h' : Holds values' is) : env.SameShapes env' := by
  intro name
  rw [henv, henv']
  split
  · next hmem =>
      obtain ⟨i, hi, rfl⟩ := List.mem_map.mp hmem
      obtain ⟨v, hv, hshape⟩ := h i hi
      obtain ⟨w, hw, hshape'⟩ := h' i hi
      rw [hv, hw]
      exact congrArg some (hshape.trans hshape'.symm)
  · rfl

/-- **One run stands for all.** A block that runs to its end from some values for its inputs does so
from any others of the same shapes, and then every declared name holds a value of its shape. -/
theorem run_transfer {b : Block} (hb : b.Consistent) {ev : Evaluator} {a a' : Arith}
    {values values' : Table Value} (hvalues : Holds values b.inputs)
    (hrun : (ev.run a b values).2 = .ok ()) (hvalues' : Holds values' b.inputs) :
    (ev.run a' b values').2 = .ok () ∧
      ∀ name s, b.Declares name s →
        ∃ v, (ev.run a' b values').1.lookup name = .ok v ∧ v.shape = s := by
  obtain ⟨env, henv, hdeclarations⟩ := runBlock_eq_ok hrun
  refine run_of_evaluates hb hvalues' fun env₁ htake henv₁ => ?_
  have hsame := henv.sameShapes (holdsInputs_of_takeInputs htake) hvalues hvalues'
  obtain ⟨env₁', htransfer⟩ := hdeclarations.transfer hsame a'
  exact ⟨env₁', htransfer, hb.conforms htransfer henv₁⟩

/-! ## The environment after a run -/

/-- Inputs are taken only if they have values of their shapes. -/
theorem holds_of_takeInputs {values : Table Value} {is : List Input} {env env' : Env}
    (h : takeInputs values is env = (env', .ok ())) : Holds values is := by
  induction is generalizing env with
  | nil => exact List.forall_mem_nil _
  | cons i is ih =>
      unfold takeInputs at h
      split at h
      · cases h
      · next v hv =>
          split at h
          · next hshape => exact List.forall_mem_cons.mpr ⟨⟨v, hv, hshape⟩, ih h⟩
          · cases h

variable {a : Arith} {ev : Evaluator} {b : Block} {values : Table Value}

/-- A run that succeeds was given a value of its shape for each input. -/
theorem holds_of_run (hrun : (ev.run a b values).2 = .ok ()) : Holds values b.inputs := by
  change (runBlock a ev.functions b values).2 = .ok () at hrun
  unfold runBlock at hrun
  split at hrun
  · cases hrun
  · next htake => exact holds_of_takeInputs htake

theorem lookup_eq_ok_iff {name : String} {v : Value} :
    ev.lookup name = .ok v ↔ ev.env.get? name = some v := by
  unfold lookup Env.lookup
  cases ev.env.get? name with
  | none => simp
  | some w => simp

/-- Under a name that is not declared a run leaves the value of the input of that name, if there is
one, and nothing otherwise. -/
theorem get?_run (hrun : (ev.run a b values).2 = .ok ()) {name : String}
    (hname : name ∉ b.declarations.map Declaration.name) :
    (ev.run a b values).1.env.get? name =
      if name ∈ b.inputs.map Input.name then values.get? name else none := by
  obtain ⟨env, henv, hdeclarations⟩ := runBlock_eq_ok hrun
  exact (hdeclarations.get?_eq hname).trans (henv name)

/-- **The environment after a run is what the block declares.** It holds a value of a shape under a name iff the
block declares the name with that shape. -/
theorem lookup_run_iff (hb : b.Consistent) (hrun : (ev.run a b values).2 = .ok ()) {name : String}
    {s : Shape} :
    (∃ v, (ev.run a b values).1.lookup name = .ok v ∧ v.shape = s) ↔ b.Declares name s := by
  have hdeclared : ∀ name s, b.Declares name s →
      ∃ v, (ev.run a b values).1.lookup name = .ok v ∧ v.shape = s :=
    (run_transfer hb (holds_of_run hrun) hrun (holds_of_run hrun)).2
  constructor
  · rintro ⟨v, hv, rfl⟩
    -- a name out of scope is neither declared nor an input, so nothing is under it
    have hscope : name ∈ b.scope.names := by
      by_contra hnot
      rw [hb.names_eq, List.mem_append, not_or] at hnot
      have hget := get?_run hrun hnot.2
      rw [if_neg hnot.1, lookup_eq_ok_iff.mp hv] at hget
      cases hget
    obtain ⟨e, he⟩ := hb.agrees.mem_names_iff.mp hscope
    obtain ⟨s, hs, _⟩ := hb.get?_eq_some_iff.mp he
    obtain ⟨w, hw, rfl⟩ := hdeclared name s hs
    obtain rfl : v = w := Except.ok.inj (hv.symm.trans hw)
    exact hs
  · exact hdeclared name s

end Evaluator

/-! ## The result of a block -/

namespace Evaluator

variable {a : Arith} {b : Block} {values : Table Value}

/-- Only calls of functions can go on without end, and here there is no function to call. -/
theorem evaluate_faultless (a : Arith) (b : Block) (values : Table Value) :
    (evaluate a b values).Faultless := by
  have hrun : (empty.run a b values).2.Faultless := run_faultless Table.not_recursive_empty a b values
  intro f hf
  unfold evaluate at hf
  split at hf
  · next h =>
      cases hf
      exact hrun f (congrArg Prod.snd h)
  · exact Outcome.ofError_ne_fault hf

/-- Evaluation of a block is a run and a look-up of the result in the environment after it. -/
theorem evaluate_eq_ok_iff {v : Value} :
    evaluate a b values = .ok v ↔
      (empty.run a b values).2 = .ok () ∧ (empty.run a b values).1.lookup returnName = .ok v := by
  unfold evaluate
  split
  · next h => simp [h]
  · next h => simp [h, Outcome.ofError, mapError_eq_ok_iff]

/-- Where no input is called like the result, a run that succeeds gives the result a value iff the block has a
reference to it, and they have one shape. -/
theorem evaluate_iff_returns (hb : b.Consistent) (hinput : returnName ∉ b.inputs.map Input.name)
    {s : Shape} :
    (∃ v, evaluate a b values = .ok v ∧ v.shape = s) ↔
      (empty.run a b values).2 = .ok () ∧ ∃ e, b.returns = .ok e ∧ e.shape = s := by
  simp only [evaluate_eq_ok_iff, and_assoc, exists_and_left]
  refine and_congr_right fun hrun => ?_
  rw [lookup_run_iff hb hrun, hb.exists_returns_iff hinput]

/-- An input that is called like the result takes its place: no declaration has the name, so the
look-up finds the input. -/
theorem evaluate_iff_input (hb : b.Consistent) (hinput : returnName ∈ b.inputs.map Input.name)
    {v : Value} :
    evaluate a b values = .ok v ↔
      (empty.run a b values).2 = .ok () ∧ values.get? returnName = some v := by
  rw [evaluate_eq_ok_iff]
  refine and_congr_right fun hrun => ?_
  rw [lookup_eq_ok_iff, get?_run hrun (hb.not_mem_declarations hinput), if_pos hinput]

/-- Evaluation and the block agree on the result: a value comes with a reference of its shape, and where the
reference is missing, evaluation fails with an error. -/
def ResultsAgree (a : Arith) (b : Block) (values : Table Value) : Prop :=
  (∀ v, evaluate a b values = .ok v → ∃ e, b.returns = .ok e ∧ e.shape = v.shape) ∧
    (b.returns = .error (.bare .missingReturn) → ∃ e, evaluate a b values = .error (.error e))

/-- **Which blocks have a result.** Evaluation of a block and the block's own reference to its result agree on
whether there is one and on its shape, for exactly those values from which the block does not run to its end with
an input that is called like the result. Where no input is called so, a block that runs to its end has a value of
a shape iff it has a reference of that shape. Where one is, the reference is missing, and yet every run that comes
to its end gives a value, that of the input. -/
theorem resultsAgree_iff (hb : b.Reachable) (a : Arith) (values : Table Value) :
    (ResultsAgree a b values ↔
      (returnName ∈ b.inputs.map Input.name → (empty.run a b values).2 ≠ .ok ())) ∧
    (returnName ∉ b.inputs.map Input.name → ∀ s,
      (∃ v, evaluate a b values = .ok v ∧ v.shape = s) ↔
        (empty.run a b values).2 = .ok () ∧ ∃ e, b.returns = .ok e ∧ e.shape = s) ∧
    (returnName ∈ b.inputs.map Input.name →
      b.returns = .error (.bare .missingReturn) ∧ ∀ v, evaluate a b values = .ok v ↔
        (empty.run a b values).2 = .ok () ∧ values.get? returnName = some v) := by
  have hc := hb.consistent
  have hmissing : returnName ∈ b.inputs.map Input.name →
      b.returns = .error (.bare .missingReturn) := fun hinput =>
    Block.returns_eq_error fun d hd hname =>
      hc.not_mem_declarations hinput (hname ▸ List.mem_map_of_mem hd)
  refine ⟨⟨fun hagree hinput hrun => ?_, fun hinput => ⟨fun v hv => ?_, fun hreturns => ?_⟩⟩,
    fun hinput s => evaluate_iff_returns hc hinput,
    fun hinput => ⟨hmissing hinput, fun v => evaluate_iff_input hc hinput⟩⟩
  · -- the run found a value for the input, and evaluation gives it for the result
    obtain ⟨i, hi, hname⟩ := List.mem_map.mp hinput
    obtain ⟨v, hv, _⟩ := holds_of_run hrun i hi
    rw [hname] at hv
    obtain ⟨e, he⟩ := hagree.2 (hmissing hinput)
    rw [(evaluate_iff_input hc hinput).mpr ⟨hrun, hv⟩] at he
    cases he
  · have hfree : returnName ∉ b.inputs.map Input.name := fun hmem =>
      hinput hmem (evaluate_eq_ok_iff.mp hv).1
    exact ((evaluate_iff_returns hc hfree).mp ⟨v, hv, rfl⟩).2
  · -- a value would come with a reference, but there is none
    refine (evaluate_faultless a b values).exists_error fun v hv => ?_
    have hfree : returnName ∉ b.inputs.map Input.name := fun hmem =>
      hinput hmem (evaluate_eq_ok_iff.mp hv).1
    obtain ⟨_, e, he, _⟩ := (evaluate_iff_returns hc hfree).mp ⟨v, hv, rfl⟩
    rw [hreturns] at he
    cases he

/-- A block whose result is declared, and its value. -/
theorem resultsAgree_iff_squareBlock :
    squareBlock.Reachable ∧ ∀ a : Arith, ResultsAgree a squareBlock ⟨[("x", .zero .float)]⟩ ∧
      ∃ v, evaluate a squareBlock ⟨[("x", .zero .float)]⟩ = .ok v ∧ v.shape = .float := by
  have hinput : (Block.empty.withInput "x" .float).Reachable :=
    @Block.Reachable.ofRequests [⟨"x", Shape.float.code⟩] _ rfl
  have hreachable : squareBlock.Reachable :=
    .define hinput (some fun _ => ⟨[], [⟨"returns", some ⟨.float, .binary "*" (.var "x") (.var "x")⟩⟩], none⟩)
  refine ⟨hreachable, fun a => ?_⟩
  obtain ⟨hagree, hvalue, _⟩ := resultsAgree_iff hreachable a ⟨[("x", .zero .float)]⟩
  have hfree : returnName ∉ squareBlock.inputs.map Input.name := by decide
  have hreturns : ∃ e, squareBlock.returns = .ok e ∧ e.shape = .float := ⟨.var "returns" .float, rfl, rfl⟩
  exact ⟨hagree.mpr fun hmem => absurd hmem hfree, (hvalue hfree .float).mpr ⟨rfl, hreturns⟩⟩

/-- A block of one input, which is called like the result. -/
def echoBlock : Block := Block.empty.withInput returnName .float

/-- The block has no result, and evaluation gives the input for it. -/
theorem echoBlock_evaluates :
    echoBlock.Reachable ∧ echoBlock.returns = .error (.bare .missingReturn) ∧
      evaluate .standard echoBlock ⟨[("returns", .ofFloat 3)]⟩ = .ok (.ofFloat 3) ∧
      ¬ ResultsAgree .standard echoBlock ⟨[("returns", .ofFloat 3)]⟩ := by
  have hreachable : echoBlock.Reachable :=
    @Block.Reachable.ofRequests [⟨returnName, Shape.float.code⟩] _ rfl
  have hvalue : evaluate .standard echoBlock ⟨[("returns", .ofFloat 3)]⟩ = .ok (.ofFloat 3) := rfl
  refine ⟨hreachable, rfl, hvalue, fun hagree => ?_⟩
  obtain ⟨e, he⟩ := hagree.2 rfl
  rw [hvalue] at he
  cases he

end Evaluator

end ShaderExpr
