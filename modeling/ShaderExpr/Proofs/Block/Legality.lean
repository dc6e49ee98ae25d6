import ShaderExpr.Proofs.Block.Extension

/-!
# Legal define steps

A define step can go wrong in three ways: it may report an error of its own, a typed look-up that it
made may have failed, or one of its bindings can not be added. The last is found out while bindings are
added one by one, so whether a binding is legal depends on the bindings before it.

* **`Scope.Reports`** — the errors of a list of typed look-ups, in the order of the look-ups.
* **`Binding.Legal`**, **`Binding.Offends`** — what makes a binding legal over names that are taken, and
  which error it is refused with if it is not.
* **`addBindings_eq_ok_iff`**, **`addBindings_eq_error_iff`** — adding bindings one by one: all of them
  are legal, or the first that is not decides the error.
* **`Admits`**, **`Rejects`** — the same for a whole draft.
* **`define_atomic`** — a define step adds all that an admitted draft binds, or fails and adds nothing.
-/

namespace ShaderExpr

/-! ## Typed look-ups -/

namespace Scope

variable {s : Scope}

/-- A typed look-up names an entry of the shape that it asks for. -/
def Finds (s : Scope) (l : Lookup) : Prop := ∃ e, s.get? l.name = some e ∧ e.shape = l.shape

/-- A typed look-up fails with an error. -/
inductive Misses (s : Scope) (l : Lookup) : Error → Prop where
  | unknown (h : l.name ∉ s.names) : Misses s l (.cause (.unknownName l.name))
  | otherShape {e : Expr} (hget : s.get? l.name = some e) (hshape : e.shape ≠ l.shape) :
      Misses s l (.cause (.otherShape l.name e.shape l.shape))

/-- The errors of typed look-ups, one for each that fails, in the order of the look-ups. -/
inductive Reports (s : Scope) : List Lookup → List Error → Prop where
  | nil : Reports s [] []
  | finds {l : Lookup} {ls : List Lookup} {es : List Error} (h : s.Finds l) (hrest : Reports s ls es) :
      Reports s (l :: ls) es
  | misses {l : Lookup} {ls : List Lookup} {e : Error} {es : List Error} (h : s.Misses l e)
      (hrest : Reports s ls es) : Reports s (l :: ls) (e :: es)

/-- A typed look-up has no error iff it finds an entry of its shape. -/
theorem lookupError?_eq_none_iff {l : Lookup} : s.lookupError? l = none ↔ s.Finds l := by
  unfold lookupError? Finds
  cases hget : s.get? l.name with
  | none => simp
  | some e => by_cases hshape : e.shape = l.shape <;> simp [hshape]

/-- A typed look-up has one of two errors, and the name decides which. That a name without an entry
is no name at all is the agreement of names and table. -/
theorem lookupError?_eq_some_iff (hs : s.Agrees) {l : Lookup} {e : Error} :
    s.lookupError? l = some e ↔ s.Misses l e := by
  constructor
  · intro h
    unfold lookupError? at h
    split at h
    · next hget =>
        cases h
        exact .unknown (hs.get?_eq_none_iff.mp hget)
    · next found hget =>
        split at h
        · cases h
        · next hshape =>
            cases h
            exact .otherShape hget hshape
  · intro h
    unfold lookupError?
    cases h with
    | unknown h => rw [hs.get?_eq_none_iff.mpr h]
    | otherShape hget hshape => simp only [hget, if_neg hshape]

/-- The errors that are collected are the reported ones. Induction on the look-ups in one direction
and on the report in the other. -/
theorem lookupErrors_eq_iff (hs : s.Agrees) {ls : List Lookup} {es : List Error} :
    s.lookupErrors ls = es ↔ s.Reports ls es := by
  constructor
  · -- every look-up reports, or finds its name; induction on the look-ups
    rintro rfl
    induction ls with
    | nil => exact .nil
    | cons l ls ih =>
        unfold lookupErrors at ih ⊢
        rw [List.filterMap_cons]
        cases herror : s.lookupError? l with
        | none => exact .finds (lookupError?_eq_none_iff.mp herror) ih
        | some e => exact .misses ((lookupError?_eq_some_iff hs).mp herror) ih
  · intro h
    unfold lookupErrors
    induction h with
    | nil => rfl
    | finds h _ ih => rw [List.filterMap_cons_none (lookupError?_eq_none_iff.mpr h), ih]
    | misses h _ ih => rw [List.filterMap_cons_some ((lookupError?_eq_some_iff hs).mpr h), ih]

theorem lookupErrors_eq_nil_iff {ls : List Lookup} :
    s.lookupErrors ls = [] ↔ ∀ l ∈ ls, s.Finds l := by
  unfold lookupErrors
  rw [List.filterMap_eq_nil_iff]
  exact forall₂_congr fun _ _ => lookupError?_eq_none_iff

end Scope

/-! ## Bindings

Names are taken by the scope before the step and by the earlier bindings of the step itself. -/

namespace Binding

variable {taken : List String} {bd : Binding}

/-- The binding can be added where some names are taken. -/
structure Legal (taken : List String) (bd : Binding) : Prop where
  named : bd.name ≠ ""
  complete : ∃ e, bd.value = some e ∧ e.node.isComplete = true
  fresh : bd.name ∉ taken

/-- The binding at an index is refused with an error. The checks are made in this order. -/
inductive Offends (taken : List String) (index : Nat) (bd : Binding) : Error → Prop where
  | unnamed (hname : bd.name = "") : Offends taken index bd (.cause (.emptyBindingName index))
  | absent (hname : bd.name ≠ "") (hvalue : ∀ e, bd.value = some e → e.node = .missing) :
      Offends taken index bd (.within (.binding bd.name) (.cause .missingExpression))
  | incomplete (hname : bd.name ≠ "") {e : Expr} (hvalue : bd.value = some e)
      (hnode : e.node ≠ .missing) (hcomplete : e.node.isComplete = false) :
      Offends taken index bd (.within (.binding bd.name) (.cause (.uninitializedOperand e.shape)))
  | duplicate (hname : bd.name ≠ "") {e : Expr} (hvalue : bd.value = some e)
      (hcomplete : e.node.isComplete = true) (hmem : bd.name ∈ taken) :
      Offends taken index bd (.cause (.duplicateName bd.name))

/-- Every binding of a list is legal over the names that are taken before it. -/
def AllLegal (taken : List String) (bds : List Binding) : Prop :=
  ∀ pre bd post, bds = pre ++ bd :: post → bd.Legal (taken ++ pre.map Binding.name)

theorem allLegal_nil (taken : List String) : AllLegal taken [] := by
  intro pre bd post h
  exact absurd h (by simp)

/-- A first binding takes its name for all that follow. Stated over splits of the list, legality
says so only of each binding; here it is unrolled from the front, as the loop goes. -/
theorem allLegal_cons_iff {bds : List Binding} :
    AllLegal taken (bd :: bds) ↔ bd.Legal taken ∧ AllLegal (taken ++ [bd.name]) bds := by
  constructor
  · intro h
    constructor
    · simpa using h [] bd bds rfl
    · intro pre other post hsplit
      have hother := h (bd :: pre) other post (by rw [hsplit, List.cons_append])
      simpa using hother
  · rintro ⟨hfirst, hrest⟩ pre other post hsplit
    -- the binding in question is the first, or stands among the others
    cases pre with
    | nil =>
        obtain ⟨rfl, rfl⟩ := List.cons.inj hsplit
        simpa using hfirst
    | cons p pre =>
        obtain ⟨rfl, htail⟩ := List.cons.inj hsplit
        have hother := hrest pre other post htail
        simpa using hother

/-- Legal bindings have values, so they are those of declarations. -/
theorem AllLegal.exists_declarations {bds : List Binding} (h : AllLegal taken bds) :
    ∃ ds : List Declaration, bds = ds.map Declaration.binding := by
  induction bds generalizing taken with
  | nil => exact ⟨[], rfl⟩
  | cons bd bds ih =>
      obtain ⟨hfirst, hrest⟩ := allLegal_cons_iff.mp h
      obtain ⟨e, hvalue, _⟩ := hfirst.complete
      obtain ⟨ds, rfl⟩ := ih hrest
      refine ⟨⟨e.shape, bd.name, e.node⟩ :: ds, ?_⟩
      rw [List.map_cons, Declaration.binding, ← hvalue]

/-- The first binding of a list that is not legal is refused with an error. The index is that of the first
binding of the list. -/
def FirstOffends (taken : List String) (index : Nat) (bds : List Binding) (e : Error) : Prop :=
  ∃ pre bd post, bds = pre ++ bd :: post ∧ AllLegal taken pre ∧
    bd.Offends (taken ++ pre.map Binding.name) (index + pre.length) e

theorem not_firstOffends_nil {index : Nat} {e : Error} : ¬ FirstOffends taken index [] e := by
  rintro ⟨pre, bd, post, h, _⟩
  exact absurd h (by simp)

/-- Either the first binding is refused, or it is legal and one of the others is refused. The index
moves on with the bindings. -/
theorem firstOffends_cons_iff {index : Nat} {bds : List Binding} {e : Error} :
    FirstOffends taken index (bd :: bds) e ↔
      bd.Offends taken index e ∨
        bd.Legal taken ∧ FirstOffends (taken ++ [bd.name]) (index + 1) bds e := by
  constructor
  · rintro ⟨pre, other, post, hsplit, hpre, hother⟩
    cases pre with
    | nil =>
        obtain ⟨rfl, rfl⟩ := List.cons.inj hsplit
        exact .inl (by simpa using hother)
    | cons p pre =>
        obtain ⟨rfl, htail⟩ := List.cons.inj hsplit
        obtain ⟨hfirst, hpre⟩ := allLegal_cons_iff.mp hpre
        refine .inr ⟨hfirst, pre, other, post, htail, hpre, ?_⟩
        -- places are counted from the first binding, or from the one after it
        rw [List.map_cons, List.length_cons, ← Nat.succ_add_eq_add_succ] at hother
        simpa using hother
  · rintro (hfirst | ⟨hfirst, pre, other, post, rfl, hpre, hother⟩)
    · exact ⟨[], bd, bds, rfl, allLegal_nil _, by simpa using hfirst⟩
    · refine ⟨bd :: pre, other, post, rfl, allLegal_cons_iff.mpr ⟨hfirst, hpre⟩, ?_⟩
      rw [List.map_cons, List.length_cons, ← Nat.succ_add_eq_add_succ]
      simpa using hother

end Binding

namespace Block

variable {b b' : Block} {e : Error}

/-- A binding is added iff it is legal over the names in scope. -/
theorem addBinding_eq_ok_iff_legal (hs : b.scope.Agrees) {i : Nat} {bd : Binding} :
    (∃ b', b.addBinding i bd = .ok b') ↔ bd.Legal b.scope.names := by
  constructor
  · rintro ⟨b', h⟩
    obtain ⟨hname, hfresh, e, hvalue, hcomplete, _⟩ := addBinding_eq_ok_iff.mp h
    exact ⟨hname, ⟨e, hvalue, hcomplete⟩, hs.get?_eq_none_iff.mp hfresh⟩
  · rintro ⟨hname, ⟨e, hvalue, hcomplete⟩, hfresh⟩
    exact ⟨_, addBinding_eq_ok_iff.mpr ⟨hname, hs.get?_eq_none_iff.mpr hfresh, e, hvalue, hcomplete, rfl⟩⟩

/-- A flaw decides the error, one case for each. Earlier flaws are excluded by the hypotheses of the
case. -/
theorem addBinding_of_offends (hs : b.scope.Agrees) {i : Nat} {bd : Binding}
    (h : bd.Offends b.scope.names i e) : b.addBinding i bd = .error e := by
  cases h with
  | unnamed hname =>
      unfold addBinding
      rw [if_pos (by simp [hname])]
  | absent hname hvalue =>
      unfold addBinding
      rw [if_neg (by simpa using hname)]
      split
      · rfl
      · rfl
      · next found hfound hsome =>
          -- an expression was found, but its tree is missing
          have hmissing : found = ⟨found.shape, .missing⟩ := by rw [← hvalue found hsome]
          exact absurd hmissing (hfound _)
  | incomplete hname hvalue hnode hcomplete =>
      unfold addBinding
      rw [if_neg (by simpa using hname), hvalue]
      split
      · next hnone => cases hnone
      · next hsome =>
          cases hsome
          exact absurd rfl hnode
      · next hsome =>
          cases hsome
          rw [hcomplete]
          rfl
  | duplicate hname hvalue hcomplete hmem =>
      exact addBinding_duplicate hname hvalue hcomplete (hs.contains_iff.mpr hmem)

/-- An error tells the flaw: the branches of the check, in its order. -/
theorem offends_of_addBinding (hs : b.scope.Agrees) {i : Nat} {bd : Binding}
    (h : b.addBinding i bd = .error e) : bd.Offends b.scope.names i e := by
  unfold addBinding at h
  split at h
  · next hname =>
      cases h
      exact .unnamed (by simpa using hname)
  · next hname =>
      have hname : bd.name ≠ "" := by simpa using hname
      split at h
      · next hvalue =>
          cases h
          exact .absent hname (by simp [hvalue])
      · next hvalue =>
          cases h
          exact .absent hname (by simp [hvalue])
      · next found hfound hvalue =>
          -- this case is left over from the one before, in which the tree is missing altogether
          have hnode : found.node ≠ .missing := fun hmissing => hfound found.shape (by rw [← hmissing])
          split at h
          · next hcomplete =>
              cases h
              exact .incomplete hname hvalue hnode (by simpa using hcomplete)
          · next hcomplete =>
              split at h
              · next hmem =>
                  cases h
                  exact .duplicate hname hvalue (by simpa using hcomplete) (hs.contains_iff.mp hmem)
              · cases h

/-- **A binding is refused exactly with the error of its first flaw.** -/
theorem addBinding_eq_error_iff (hs : b.scope.Agrees) {i : Nat} {bd : Binding} :
    b.addBinding i bd = .error e ↔ bd.Offends b.scope.names i e :=
  ⟨offends_of_addBinding hs, addBinding_of_offends hs⟩

/-! ## Bindings one by one -/

/-- The block after declarations whose names were free: each is added to the scope as well. -/
def withDeclarations (b : Block) (ds : List Declaration) : Block :=
  { b with
    scope := ⟨b.scope.names ++ ds.map Declaration.name,
      some ⟨b.scope.table.entries ++ ds.map fun d => (d.name, .var d.name d.shape)⟩⟩
    declarations := b.declarations ++ ds }

theorem withDeclarations_nil (b : Block) : b.withDeclarations [] = b.opened := by
  unfold withDeclarations opened Scope.opened
  simp

/-- Declarations may be added one by one, since each has a free name and goes to the end of the
table. -/
theorem withDeclaration_withDeclarations {b : Block} {d : Declaration}
    (hfresh : b.scope.get? d.name = none) (ds : List Declaration) :
    (b.withDeclaration d.name ⟨d.shape, d.value⟩).withDeclarations ds = b.withDeclarations (d :: ds) := by
  rw [Scope.get?_eq_table] at hfresh
  unfold withDeclarations withDeclaration
  simp [Table.entries_insert hfresh]

/-- Bindings are added to a block with a table iff each of them is legal over the names taken before it, and
then each becomes a declaration. Induction on the bindings: one that was added takes its name for the
others. -/
theorem addBindings_eq_ok_iff (hs : b.scope.Agrees) (hopened : b.opened = b) {i : Nat} {bds : List Binding} :
    b.addBindings i bds = .ok b' ↔
      Binding.AllLegal b.scope.names bds ∧
        ∃ ds, bds = ds.map Declaration.binding ∧ b' = b.withDeclarations ds := by
  induction bds generalizing b i with
  | nil =>
      -- nothing is added, and the block has its table already
      rw [addBindings, Except.ok.injEq]
      constructor
      · rintro rfl
        exact ⟨Binding.allLegal_nil _, [], rfl, by rw [withDeclarations_nil, hopened]⟩
      · rintro ⟨_, ds, hds, rfl⟩
        rw [List.map_eq_nil_iff.mp hds.symm, withDeclarations_nil, hopened]
  | cons bd bds ih =>
      rw [addBindings, bind_eq_ok_iff, Binding.allLegal_cons_iff]
      constructor
      · rintro ⟨b₁, h₁, h₂⟩
        have hlegal := (addBinding_eq_ok_iff_legal hs).mp ⟨b₁, h₁⟩
        obtain ⟨hname, hfresh, e, hvalue, hcomplete, rfl⟩ := addBinding_eq_ok_iff.mp h₁
        obtain ⟨hrest, ds, rfl, rfl⟩ := (ih (hs.bind hfresh e.shape) rfl).mp h₂
        refine ⟨⟨hlegal, hrest⟩, ⟨e.shape, bd.name, e.node⟩ :: ds, ?_, ?_⟩
        · rw [List.map_cons, Declaration.binding, ← hvalue]
        · exact withDeclaration_withDeclarations (d := ⟨e.shape, bd.name, e.node⟩) hfresh ds
      · -- the other way round the first declaration is that of the first binding
        rintro ⟨⟨hlegal, hrest⟩, ds, hds, rfl⟩
        obtain ⟨d, ds, rfl, rfl, rfl⟩ := List.map_eq_cons_iff.mp hds.symm
        obtain ⟨hname, ⟨e, hvalue, hcomplete⟩, hfresh⟩ := hlegal
        cases hvalue
        have hnone : b.scope.get? d.name = none := hs.get?_eq_none_iff.mpr hfresh
        refine ⟨b.withDeclaration d.name ⟨d.shape, d.value⟩,
          addBinding_eq_ok_iff.mpr ⟨hname, hnone, _, rfl, hcomplete, rfl⟩,
          (ih (hs.bind hnone d.shape) rfl).mpr ⟨hrest, ds, rfl, ?_⟩⟩
        exact (withDeclaration_withDeclarations hnone ds).symm

/-- Bindings are refused with the error of the first that is not legal over the names taken before
it. Induction on the bindings, as they are added. -/
theorem addBindings_eq_error_iff (hs : b.scope.Agrees) {i : Nat} {bds : List Binding} :
    b.addBindings i bds = .error e ↔ Binding.FirstOffends b.scope.names i bds e := by
  induction bds generalizing b i with
  | nil =>
      rw [addBindings]
      exact iff_of_false (fun h => by cases h) Binding.not_firstOffends_nil
  | cons bd bds ih =>
      rw [addBindings, bind_eq_error_iff, Binding.firstOffends_cons_iff, addBinding_eq_error_iff hs]
      -- the first binding is refused in the same way; otherwise it is added and takes its name
      refine or_congr_right ?_
      constructor
      · rintro ⟨b₁, h₁, h₂⟩
        refine ⟨(addBinding_eq_ok_iff_legal hs).mp ⟨b₁, h₁⟩, ?_⟩
        obtain ⟨_, hfresh, e', _, _, rfl⟩ := addBinding_eq_ok_iff.mp h₁
        exact (ih (hs.bind hfresh e'.shape)).mp h₂
      · rintro ⟨⟨hname, ⟨e', hvalue, hcomplete⟩, hfresh⟩, hrest⟩
        have hnone : b.scope.get? bd.name = none := hs.get?_eq_none_iff.mpr hfresh
        exact ⟨b.withDeclaration bd.name e',
          addBinding_eq_ok_iff.mpr ⟨hname, hnone, e', hvalue, hcomplete, rfl⟩,
          (ih (hs.bind hnone e'.shape)).mpr hrest⟩

/-! ## Whole drafts -/

/-- A draft that a define step may make: no error, no failed look-up, legal bindings only. -/
structure Admits (b : Block) (d : Draft) : Prop where
  unfailed : d.failure = none
  found : ∀ l ∈ d.lookups, b.scope.Finds l
  legal : Binding.AllLegal b.scope.names d.bindings

/-- A draft is refused with an error: its own error joined with those of its look-ups, if there are any,
or else the error of its first binding that is not legal. -/
inductive Rejects (b : Block) (d : Draft) : Error → Prop where
  | joined {missed : List Error} (hmissed : b.scope.Reports d.lookups missed)
      (hsome : d.failure.toList ++ missed ≠ []) : Rejects b d (.joined (d.failure.toList ++ missed))
  | binding {e : Error} (hfailure : d.failure = none) (hfound : ∀ l ∈ d.lookups, b.scope.Finds l)
      (hoffends : Binding.FirstOffends b.scope.names 0 d.bindings e) : Rejects b d e

/-- A draft goes on to its bindings iff the step and all its look-ups went well. -/
theorem draftError?_eq_none_iff {d : Draft} :
    b.draftError? d = none ↔ d.failure = none ∧ ∀ l ∈ d.lookups, b.scope.Finds l := by
  unfold draftError? Error.join?
  rw [← Scope.lookupErrors_eq_nil_iff]
  simp

/-- The error of a draft joins its own error and those of its look-ups, in this order. -/
theorem draftError?_eq_some_iff (hs : b.scope.Agrees) {d : Draft} :
    b.draftError? d = some e ↔
      ∃ missed, b.scope.Reports d.lookups missed ∧ d.failure.toList ++ missed ≠ [] ∧
        e = .joined (d.failure.toList ++ missed) := by
  unfold draftError? Error.join?
  simp only [← Scope.lookupErrors_eq_iff hs, exists_eq_left', ne_eq]
  split
  · next hempty => simp [List.isEmpty_iff.mp hempty]
  · next hsome =>
      rw [List.isEmpty_iff] at hsome
      simp only [Option.some.injEq, hsome, not_false_eq_true, true_and]
      exact eq_comm

/-- A step succeeds iff the block admits its draft, and then the declarations are those of the
bindings. -/
theorem define_eq_ok_iff_admits (hs : b.scope.Agrees) {step : Scope → Draft} :
    b.define (some step) = ⟨b', none⟩ ↔
      b.Admits (step b.scope) ∧
        ∃ ds, (step b.scope).bindings = ds.map Declaration.binding ∧ b' = b.withDeclarations ds := by
  rw [define_eq_ok_iff]
  constructor
  · rintro ⟨_, hstep, herror, hadd⟩
    cases hstep
    obtain ⟨hfailure, hfound⟩ := draftError?_eq_none_iff.mp herror
    -- bindings are added to the block once it has a table, which changes no names
    obtain ⟨hlegal, hresult⟩ := (addBindings_eq_ok_iff (b := b.opened) hs rfl).mp hadd
    exact ⟨⟨hfailure, hfound, hlegal⟩, hresult⟩
  · rintro ⟨⟨hfailure, hfound, hlegal⟩, hresult⟩
    exact ⟨step, rfl, draftError?_eq_none_iff.mpr ⟨hfailure, hfound⟩,
      (addBindings_eq_ok_iff (b := b.opened) hs rfl).mpr ⟨hlegal, hresult⟩⟩

/-- A step fails with an error iff the block rejects its draft with it. The two ways to be rejected
exclude each other, since the second needs all look-ups to be found. -/
theorem define_eq_error_iff_rejects (hs : b.scope.Agrees) {step : Scope → Draft} :
    (b.define (some step)).error = some e ↔ b.Rejects (step b.scope) e := by
  rw [define_eq, Attempt.error_ofResult_eq_some_iff]
  unfold extension
  cases herror : b.draftError? (step b.scope) with
  | some e' =>
      obtain ⟨missed, hmissed, hsome, rfl⟩ := (draftError?_eq_some_iff hs).mp herror
      simp only [Except.error.injEq]
      constructor
      · rintro rfl
        exact .joined hmissed hsome
      · intro h
        cases h with
        | joined hmissed' _ =>
            -- the report of the look-ups is unique
            rw [← (Scope.lookupErrors_eq_iff hs).mpr hmissed, ← (Scope.lookupErrors_eq_iff hs).mpr hmissed']
        | binding hfailure hfound _ =>
            rw [draftError?_eq_none_iff.mpr ⟨hfailure, hfound⟩] at herror
            cases herror
  | none =>
      obtain ⟨hfailure, hfound⟩ := draftError?_eq_none_iff.mp herror
      simp only
      rw [addBindings_eq_error_iff (b := b.opened) hs]
      refine ⟨.binding hfailure hfound, fun h => ?_⟩
      cases h with
      | joined hmissed hsome =>
          rw [(draftError?_eq_some_iff hs).mpr ⟨_, hmissed, hsome, rfl⟩] at herror
          cases herror
      | binding _ _ hoffends => exact hoffends

/-- **Define steps are atomic.** A step on a block that was built succeeds iff it reports no error, each of
its typed look-ups names an entry of the shape that it asks for, and each binding has a name that is neither
empty nor taken, by the scope or by a binding before it, and an expression with a complete tree. Then the
inputs stay, and the declarations, the names in scope and the table go on with one entry for each binding in
order. A step that fails gives back the block that it was given. Its error is the step's own joined with
those of the failed look-ups in their order, if there are any, and else that of the first binding that can
not be added. -/
theorem define_atomic {b : Block} (hb : b.Reachable) (step : Scope → Draft) :
    ((b.define (some step)).error = none ↔ b.Admits (step b.scope)) ∧
      (∀ b', b.define (some step) = ⟨b', none⟩ →
        b'.inputs = b.inputs ∧
          ∃ ds, (step b.scope).bindings = ds.map Declaration.binding ∧
            b'.declarations = b.declarations ++ ds ∧
            b'.scope.names = b.scope.names ++ ds.map Declaration.name ∧
            b'.scope.vars = some ⟨b.scope.table.entries ++ ds.map fun d => (d.name, .var d.name d.shape)⟩) ∧
      (∀ e, (b.define (some step)).error = some e → (b.define (some step)).block = b) ∧
      ∀ e, (b.define (some step)).error = some e ↔ b.Rejects (step b.scope) e := by
  have hs := hb.consistent.agrees
  refine ⟨⟨fun h => ?_, fun hadmits => ?_⟩, fun b' h => ?_, fun e => block_define_of_error,
    fun e => define_eq_error_iff_rejects hs⟩
  · exact ((define_eq_ok_iff_admits hs).mp (congrArg (Attempt.mk _) h)).1
  · -- legal bindings all have expressions, so they are declarations
    obtain ⟨ds, hds⟩ := hadmits.legal.exists_declarations
    rw [(define_eq_ok_iff_admits hs).mpr ⟨hadmits, ds, hds, rfl⟩]
  · obtain ⟨_, ds, hds, rfl⟩ := (define_eq_ok_iff_admits hs).mp h
    exact ⟨rfl, ds, hds, rfl, rfl, rfl⟩

/-- A step that looks up `a` and binds `b` to it, twice if asked to. -/
def bindStep (twice : Bool) (s : Scope) : Draft :=
  let binding : Binding := ⟨"b", s.get? "a"⟩
  ⟨[⟨"a", .vec3⟩], if twice then [binding, binding] else [binding], none⟩

/-- A step that adds a binding, and one that binds the same name twice and adds nothing. -/
theorem define_atomic_bindStep :
    (empty.withInput "a" .vec3).Reachable ∧
      (∃ b', (empty.withInput "a" .vec3).define (some (bindStep false)) = ⟨b', none⟩ ∧
        b'.inputs = [⟨"a", .vec3⟩] ∧ b'.scope.names = ["a", "b"]) ∧
      (empty.withInput "a" .vec3).define (some (bindStep true)) =
        ⟨empty.withInput "a" .vec3, some (.cause (.duplicateName "b"))⟩ := by
  have hreachable : (empty.withInput "a" .vec3).Reachable :=
    @Reachable.ofRequests [⟨"a", Shape.vec3.code⟩] _ rfl
  obtain ⟨hsuccess, hextends, _⟩ := define_atomic hreachable (bindStep false)
  obtain ⟨_, _, hkeeps, hfails⟩ := define_atomic hreachable (bindStep true)
  have hfinds : ∀ l ∈ [(⟨"a", .vec3⟩ : Lookup)], (empty.withInput "a" .vec3).scope.Finds l := by
    intro l hl
    rw [List.mem_singleton.mp hl]
    exact ⟨.var "a" .vec3, rfl, rfl⟩
  have hlegal : Binding.AllLegal (empty.withInput "a" .vec3).scope.names
      [⟨"b", some (.var "a" .vec3)⟩] :=
    Binding.allLegal_cons_iff.mpr
      ⟨⟨by decide, ⟨.var "a" .vec3, rfl, rfl⟩, by decide⟩, Binding.allLegal_nil _⟩
  refine ⟨hreachable, ?_, ?_⟩
  · have herror := hsuccess.mpr ⟨rfl, hfinds, hlegal⟩
    obtain ⟨hinputs, ds, hds, _, hnames, _⟩ := hextends _ (congrArg (Attempt.mk _) herror)
    refine ⟨_, congrArg (Attempt.mk _) herror, hinputs, ?_⟩
    have hadded : ds.map Declaration.name = ["b"] :=
      (List.map_map (g := Binding.name) (f := Declaration.binding)).symm.trans
        (congrArg (List.map Binding.name) hds.symm)
    rw [hnames, hadded]
    rfl
  · have hoffends : (empty.withInput "a" .vec3).Rejects
        (bindStep true (empty.withInput "a" .vec3).scope) (.cause (.duplicateName "b")) :=
      .binding rfl hfinds
        ⟨[⟨"b", some (.var "a" .vec3)⟩], ⟨"b", some (.var "a" .vec3)⟩, [], rfl, hlegal,
          .duplicate (by decide) rfl rfl (by decide)⟩
    have herror := (hfails _).mpr hoffends
    exact congr (congrArg Attempt.mk (hkeeps _ herror)) herror

end Block

end ShaderExpr
