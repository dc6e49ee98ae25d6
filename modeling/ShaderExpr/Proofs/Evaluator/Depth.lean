import Mathlib.Data.Finset.Card
import ShaderExpr.Proofs.Evaluator.Shapes
import ShaderExpr.Proofs.Evaluator.Soundness

/-!
# How deep calls need to nest

Evaluation lets calls nest to a depth that is fixed beforehand, so the same tree is evaluated with one level
less inside of a function than outside. That makes no difference to values: where a call gives a value at
some depth, it gives that value at every depth that leaves a level for each function.

The argument is one of counting. A function that gives a value for some arguments gives one for all arguments
of its parameters' types, so it is enough to ask which functions give values at a depth. There are more of
them the deeper calls may nest, and a depth that adds none is one after which none is ever added.

* **`Covers`** — one way to call functions gives every value that another gives; `Node.eval_covers` and
  `Function.run_covers` carry that over to trees and functions.
* **`Function.callAt_covers_succ`** — a deeper level gives what a level above it gives.
* **`Function.callAt_covers_of_succ`** — from the number of functions on, also the other way round.
-/

namespace ShaderExpr

/-- Calling a function by name on arguments gives a value. -/
def Gives (call : String → Option (List Value → Outcome Value)) (name : String) (vs : List Value)
    (v : Value) : Prop :=
  ∃ run, call name = some run ∧ run vs = .ok v

/-- A way to call functions knows no other names than a second one and gives every value that the second
gives. -/
structure Covers (call call' : String → Option (List Value → Outcome Value)) : Prop where
  unknown : ∀ name, call' name = none → call name = none
  gives : ∀ name vs v, Gives call' name vs v → Gives call name vs v

/-! ## Trees -/

namespace Node

variable {a : Arith} {call call' : String → Option (List Value → Outcome Value)} {env : Env}

/-- Arguments that give their values one by one give them together. -/
theorem evals_covers {ns : List Node} {vs : List Value}
    (h : ∀ n ∈ ns, ∀ v, n.eval a call' env = .ok v → n.eval a call env = .ok v)
    (hvs : evals a call' env ns = .ok vs) : evals a call env ns = .ok vs := by
  induction ns generalizing vs with
  | nil =>
      rw [evals] at hvs ⊢
      exact hvs
  | cons n ns ih =>
      rw [evals] at hvs ⊢
      obtain ⟨v, hv, hrest⟩ := bind_eq_ok_iff.mp hvs
      obtain ⟨ws, hws, hlist⟩ := bind_eq_ok_iff.mp hrest
      have hn := h n List.mem_cons_self v hv
      have hns := ih (fun k hk => h k (List.mem_cons_of_mem _ hk)) hws
      exact bind_eq_ok_iff.mpr ⟨v, hn, bind_eq_ok_iff.mpr ⟨ws, hns, hlist⟩⟩

/-- What covers calls covers trees: a tree gives every value that it gave before. Induction over the
tree. Only values are carried over, since a call that had none may have one now. -/
theorem eval_covers (h : Covers call call') {n : Node} {v : Value}
    (hv : n.eval a call' env = .ok v) : n.eval a call env = .ok v := by
  induction n using Node.induction generalizing v with
  | literal s =>
      rw [eval] at hv ⊢
      exact hv
  | var s =>
      rw [eval] at hv ⊢
      exact hv
  | call f args ih =>
      rw [eval] at hv ⊢
      obtain ⟨vs, hvs, hcall⟩ := bind_eq_ok_iff.mp hv
      refine bind_eq_ok_iff.mpr ⟨vs, evals_covers (fun n hn v => ih n hn) hvs, ?_⟩
      cases hf : call' f with
      | none =>
          -- a name that is no function here is none there, so both call what is built in
          rw [hf] at hcall
          rw [h.unknown f hf]
          exact hcall
      | some run =>
          rw [hf] at hcall
          obtain ⟨run', hf', hrun'⟩ := h.gives f vs v ⟨run, hf, hcall⟩
          rw [hf']
          exact hrun'
  | unary op x ih =>
      rw [eval] at hv ⊢
      obtain ⟨w, hw, hop⟩ := bind_eq_ok_iff.mp hv
      exact bind_eq_ok_iff.mpr ⟨w, ih hw, hop⟩
  | binary op x y ihx ihy =>
      rw [eval] at hv ⊢
      obtain ⟨w, hw, hrest⟩ := bind_eq_ok_iff.mp hv
      obtain ⟨u, hu, hop⟩ := bind_eq_ok_iff.mp hrest
      exact bind_eq_ok_iff.mpr ⟨w, ihx hw, bind_eq_ok_iff.mpr ⟨u, ihy hu, hop⟩⟩
  | missing =>
      rw [eval] at hv ⊢
      exact hv

end Node

/-! ## Functions -/

namespace Function

variable {fn : Function} {eval eval' : Env → Node → Outcome Value}

/-- A function gives a value iff its arguments are as many as its parameters and of their types, and
its declarations and then its result evaluate. The checks come first and do not depend on
evaluation. -/
theorem run_eq_ok_iff {vs : List Value} {v : Value} :
    fn.run eval vs = .ok v ↔
      vs.length = fn.params.length ∧ ∃ env env', fn.bindArguments fn.params vs .empty = .ok env ∧
        fn.runBody eval fn.body env = .ok env' ∧ eval env' fn.result = .ok v := by
  unfold run
  by_cases hlength : vs.length = fn.params.length
  · simp only [hlength, ne_eq, not_true, if_false, true_and]
    simp only [bind_eq_ok_iff, Outcome.ofError, mapError_eq_ok_iff, exists_and_left]
  · simp only [ne_eq, hlength, not_false_eq_true, if_true, false_and, iff_false]
    intro h
    cases h

theorem runBody_covers (heval : ∀ env n v, eval' env n = .ok v → eval env n = .ok v)
    {sts : List Statement} {env env' : Env} (h : fn.runBody eval' sts env = .ok env') :
    fn.runBody eval sts env = .ok env' := by
  induction sts generalizing env with
  | nil => exact h
  | cons st sts ih =>
      rw [runBody] at h ⊢
      obtain ⟨v, hv, hrest⟩ := bind_eq_ok_iff.mp h
      have hv := heval env st.value v (Outcome.inside_eq_ok_iff.mp hv)
      exact bind_eq_ok_iff.mpr ⟨v, Outcome.inside_eq_ok_iff.mpr hv, ih hrest⟩

/-- And so it does for functions, whose body and result are trees. -/
theorem run_covers (heval : ∀ env n v, eval' env n = .ok v → eval env n = .ok v) {vs : List Value}
    {v : Value} (h : fn.run eval' vs = .ok v) : fn.run eval vs = .ok v := by
  obtain ⟨hlength, env, env', hbind, hbody, hresult⟩ := run_eq_ok_iff.mp h
  exact run_eq_ok_iff.mpr
    ⟨hlength, env, env', hbind, runBody_covers heval hbody, heval env' fn.result v hresult⟩

/-- Arguments that were taken have the types of their parameters. -/
theorem types_of_bindArguments {ps : List Param} {vs : List Value} {env env' : Env}
    (hlength : vs.length = ps.length) (h : fn.bindArguments ps vs env = .ok env') :
    vs.map (fun v => v.shape.name) = ps.map Param.type := by
  induction ps generalizing vs env with
  | nil =>
      rw [List.length_eq_zero_iff.mp hlength]
      rfl
  | cons p ps ih =>
      obtain ⟨v, vs, rfl⟩ := List.exists_cons_of_length_eq_add_one hlength
      rw [bindArguments] at h
      split at h
      · next htype =>
          rw [List.map_cons, List.map_cons, htype, ih (Nat.succ.inj hlength) h]
      · cases h

/-- Arguments for which a function gives values have the same shapes, namely those of its
parameters. -/
theorem sameShapes_of_run {vs ws : List Value} {v w : Value} (hv : fn.run eval vs = .ok v)
    (hw : fn.run eval' ws = .ok w) : SameShapes vs ws := by
  obtain ⟨hvlength, _, _, hvbind, _⟩ := run_eq_ok_iff.mp hv
  obtain ⟨hwlength, _, _, hwbind, _⟩ := run_eq_ok_iff.mp hw
  have htypes : vs.map (fun v => v.shape.name) = ws.map fun w => w.shape.name :=
    (types_of_bindArguments hvlength hvbind).trans (types_of_bindArguments hwlength hwbind).symm
  refine (List.map_inj_right fun _ _ => Shape.name_injective).mp ?_
  rw [List.map_map, List.map_map]
  exact htypes

/-! ## Levels -/

variable {a : Arith} {fns : Table Function} {depth : Nat} {name : String} {vs : List Value} {v : Value}

theorem callAt_eq_none_iff : callAt a fns depth name = none ↔ fns.get? name = none := by
  cases depth with
  | zero => rw [callAt, Option.map_eq_none_iff]
  | succ depth => rw [callAt, Option.map_eq_none_iff]

theorem not_gives_callAt_zero : ¬ Gives (callAt a fns 0) name vs v := by
  rintro ⟨run, hrun, hv⟩
  rw [callAt] at hrun
  obtain ⟨_, _, rfl⟩ := Option.map_eq_some_iff.mp hrun
  cases hv

/-- A call at some depth runs the function with calls at one less. -/
theorem gives_callAt_succ_iff :
    Gives (callAt a fns (depth + 1)) name vs v ↔
      ∃ fn, fns.get? name = some fn ∧ fn.run (Node.eval a (callAt a fns depth)) vs = .ok v := by
  unfold Gives
  rw [callAt]
  constructor
  · rintro ⟨run, hrun, hv⟩
    obtain ⟨fn, hfn, rfl⟩ := Option.map_eq_some_iff.mp hrun
    exact ⟨fn, hfn, hv⟩
  · rintro ⟨fn, hfn, hv⟩
    exact ⟨_, Option.map_eq_some_iff.mpr ⟨fn, hfn, rfl⟩, hv⟩

/-- What covers at one level covers at the next: a function runs its body one level deeper. -/
theorem callAt_covers_step {depth' : Nat} (h : Covers (callAt a fns depth) (callAt a fns depth')) :
    Covers (callAt a fns (depth + 1)) (callAt a fns (depth' + 1)) where
  unknown name hname := callAt_eq_none_iff.mpr (callAt_eq_none_iff.mp hname)
  gives name vs v hv := by
    obtain ⟨fn, hfn, hrun⟩ := gives_callAt_succ_iff.mp hv
    exact gives_callAt_succ_iff.mpr
      ⟨fn, hfn, run_covers (fun _ _ _ hn => Node.eval_covers h hn) hrun⟩

/-- A deeper level gives all that a level above it gives. Induction on the depth, from a level at
which there is nothing to give. -/
theorem callAt_covers_succ (a : Arith) (fns : Table Function) (depth : Nat) :
    Covers (callAt a fns (depth + 1)) (callAt a fns depth) := by
  induction depth with
  | zero =>
      exact ⟨fun name hname => callAt_eq_none_iff.mpr (callAt_eq_none_iff.mp hname),
        fun name vs v hv => absurd hv not_gives_callAt_zero⟩
  | succ depth ih => exact callAt_covers_step ih

/-! ## Counting

The functions that give values form an increasing chain of sets, one for each depth. Two successive sets that
are equal make all later ones equal, so the chain has stopped growing by the number of functions. -/

open Classical in
/-- The names of the functions that give a value for some arguments. -/
noncomputable def answering (a : Arith) (fns : Table Function) (depth : Nat) : Finset String :=
  fns.names.toFinset.filter fun name => ∃ vs v, Gives (callAt a fns depth) name vs v

/-- Which names answer does not depend on the table, as only names in it can be called. -/
theorem mem_answering_iff :
    name ∈ answering a fns depth ↔ ∃ vs v, Gives (callAt a fns depth) name vs v := by
  classical
  unfold answering
  rw [Finset.mem_filter, List.mem_toFinset, and_iff_right_iff_imp]
  rintro ⟨vs, v, run, hrun, _⟩
  -- a name that can be called is in the table
  have hknown : callAt a fns depth name ≠ none := by
    rw [hrun]
    exact Option.some_ne_none run
  obtain ⟨fn, hfn⟩ := Option.ne_none_iff_exists'.mp (mt callAt_eq_none_iff.mpr hknown)
  exact Table.mem_names_of_get? hfn

theorem answering_subset_succ (a : Arith) (fns : Table Function) (depth : Nat) :
    answering a fns depth ⊆ answering a fns (depth + 1) := by
  intro name hname
  obtain ⟨vs, v, hv⟩ := mem_answering_iff.mp hname
  exact mem_answering_iff.mpr ⟨vs, v, (callAt_covers_succ a fns depth).gives name vs v hv⟩

/-- There are no more of them than functions. -/
theorem card_answering_le (a : Arith) (fns : Table Function) (depth : Nat) :
    (answering a fns depth).card ≤ fns.entries.length := by
  classical
  calc (answering a fns depth).card
      ≤ fns.names.toFinset.card := Finset.card_le_card (Finset.filter_subset _ _)
    _ ≤ fns.names.length := List.toFinset_card_le _
    _ = fns.entries.length := List.length_map ..

/-- Where one more level adds no function, it adds no value either. A function that answers at all
answers on every list of arguments that it takes, since evaluation succeeds or fails by shapes
alone. -/
theorem callAt_covers_of_answering_eq (h : answering a fns depth = answering a fns (depth + 1)) :
    Covers (callAt a fns depth) (callAt a fns (depth + 1)) where
  unknown name hname := callAt_eq_none_iff.mpr (callAt_eq_none_iff.mp hname)
  gives name vs v hv := by
    have hname : name ∈ answering a fns depth := by
      rw [h]
      exact mem_answering_iff.mpr ⟨vs, v, hv⟩
    obtain ⟨ws, w, hw⟩ := mem_answering_iff.mp hname
    -- the other arguments have the same shapes, so those at hand give a value as well
    have hdeeper := (callAt_covers_succ a fns depth).gives name ws w hw
    obtain ⟨fn, hfn, hvrun⟩ := gives_callAt_succ_iff.mp hv
    obtain ⟨fn', hfn', hwrun⟩ := gives_callAt_succ_iff.mp hdeeper
    obtain rfl : fn = fn' := Option.some.inj (hfn.symm.trans hfn')
    have hshapes : SameShapes ws vs := sameShapes_of_run hwrun hvrun
    obtain ⟨run, hrun, hwvalue⟩ := hw
    have hagree := callAt_agree a a fns depth name
    rw [hrun] at hagree
    cases hagree with
    | some hagree =>
        have hsame := hagree ws vs hshapes
        rw [hwvalue] at hsame
        obtain ⟨u, hu, _⟩ := hsame.exists_ok
        -- and it is the value that the deeper level gives
        have hgives : Gives (callAt a fns depth) name vs u := ⟨run, hrun, hu⟩
        obtain ⟨run', hrun', hu'⟩ := (callAt_covers_succ a fns depth).gives name vs u hgives
        obtain ⟨run'', hrun'', hv'⟩ := hv
        obtain rfl : run' = run'' := Option.some.inj (hrun'.symm.trans hrun'')
        obtain rfl : u = v := Except.ok.inj (hu'.symm.trans hv')
        exact hgives

/-- By the number of functions some level has added nothing, or each has added a function. Induction
on the depth. -/
theorem exists_answering_eq_or (a : Arith) (fns : Table Function) (depth : Nat) :
    (∃ k < depth, answering a fns k = answering a fns (k + 1)) ∨
      depth ≤ (answering a fns depth).card := by
  induction depth with
  | zero => exact .inr (Nat.zero_le _)
  | succ depth ih =>
      rcases ih with ⟨k, hk, heq⟩ | hcard
      · exact .inl ⟨k, by omega, heq⟩
      · by_cases heq : answering a fns depth = answering a fns (depth + 1)
        · exact .inl ⟨depth, by omega, heq⟩
        · have hlt := Finset.card_lt_card
            ((answering_subset_succ a fns depth).ssubset_of_ne heq)
          exact .inr (by omega)

/-- **Depth enough.** At a depth of at least the number of functions, one more level gives no more
values. Some level before it has added no function, and what covers there covers from there on. -/
theorem callAt_covers_of_succ (hdepth : fns.entries.length ≤ depth) :
    Covers (callAt a fns depth) (callAt a fns (depth + 1)) := by
  obtain ⟨k, hk, heq⟩ : ∃ k < fns.entries.length + 1, answering a fns k = answering a fns (k + 1) := by
    -- otherwise there would be more names that answer than functions
    rcases exists_answering_eq_or a fns (fns.entries.length + 1) with h | hcard
    · exact h
    · have hle := card_answering_le a fns (fns.entries.length + 1)
      omega
  have hkdepth : k ≤ depth := by omega
  clear hdepth
  induction depth, hkdepth using Nat.le_induction with
  | base => exact callAt_covers_of_answering_eq heq
  | succ depth _ ih => exact callAt_covers_step ih

end Function

end ShaderExpr
