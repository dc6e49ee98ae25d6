import ShaderExpr.Block
import ShaderExpr.Proofs.Outcome

/-!
# How blocks are represented

A block keeps three lists: its inputs, its declarations and the names in scope, and beside the names a table
of what they stand for. They say the same thing over and over, and no operation updates one without the
others. This module states that as an invariant and carries it over every way to build a block. The empty
block is the only one without a table; that it has none makes no difference to any look-up.

* **`addInput_eq_ok_iff`**, **`addBinding_eq_ok_iff`** — all that the two steps which extend a block can
  do, guards included.
* **`outcome_addInputs`**, **`extend_eq`** — the loops over these steps, as folds.
* **`Consistent`** — the invariant: names and table are the listing of inputs and declarations, names are
  not empty and do not repeat, and the trees of declarations are complete.
* **`Reachable`** — blocks that begin empty or with inputs only and then undergo define steps, some of
  which may fail.
* **`Reachable.consistent`** — every such block has the invariant; what a caller sees of it is put
  together in **`Reachable.representation`**.
-/

namespace ShaderExpr

theorem ShapeCode.isValid_iff {c : ShapeCode} : c.isValid = true ↔ ∃ s, c.shape? = some s :=
  Option.isSome_iff_exists

theorem Expr.varOfCode_of_shape? {name : String} {c : ShapeCode} {s : Shape} (h : c.shape? = some s) :
    varOfCode name c = .ok (.var name s) := by
  unfold varOfCode
  rw [h]

namespace Table

variable {α : Type}

/-- A name is in a table iff there is a value under it. -/
theorem mem_names_iff {t : Table α} {name : String} : name ∈ t.names ↔ ∃ v, t.get? name = some v := by
  refine ⟨fun h => ?_, fun ⟨_, hv⟩ => mem_names_of_get? hv⟩
  obtain ⟨⟨key, v⟩, hmem, rfl⟩ := List.mem_map.mp h
  exact exists_find?_of_mem hmem

/-- Where no name repeats, the value under a name is what stands beside it. Induction on the entries: an
earlier entry with the name would be a repetition. -/
theorem find?_eq_some_of_mem {es : List (String × α)} (hes : (es.map Prod.fst).Nodup) {name : String} {v : α}
    (h : (name, v) ∈ es) : find? name es = some v := by
  induction es with
  | nil => exact absurd h List.not_mem_nil
  | cons e es ih =>
      obtain ⟨key, w⟩ := e
      rw [List.map_cons, List.nodup_cons] at hes
      rcases List.mem_cons.mp h with heq | hmem
      · cases heq
        exact if_pos rfl
      · -- names do not repeat, so the name is not the first one
        have hkey : key ≠ name := by
          rintro rfl
          exact hes.1 (List.mem_map.mpr ⟨_, hmem, rfl⟩)
        rw [find?, if_neg hkey]
        exact ih hes.2 hmem

/-- Where no name repeats, a look-up finds exactly the entries. -/
theorem get?_eq_some_iff {t : Table α} (ht : t.names.Nodup) {name : String} {v : α} :
    t.get? name = some v ↔ (name, v) ∈ t.entries :=
  ⟨mem_of_find?_eq_some, find?_eq_some_of_mem ht⟩

theorem entries_insert {t : Table α} {name : String} (h : t.get? name = none) (v : α) :
    (t.insert name v).entries = t.entries ++ [(name, v)] :=
  put_of_find?_eq_none h v

end Table

/-! ## Names and look-ups of a scope -/

namespace Scope

/-- A look-up asks the table. Where there is none, a new one would answer the same. -/
theorem get?_eq_table (s : Scope) (name : String) : s.get? name = s.table.get? name := by
  unfold get? table
  cases s.vars with
  | none => rfl
  | some t => rfl

@[simp] theorem names_bind (s : Scope) (name : String) (shape : Shape) :
    (s.bind name shape).names = s.names ++ [name] := rfl

@[simp] theorem table_bind (s : Scope) (name : String) (shape : Shape) :
    (s.bind name shape).table = s.table.insert name (.var name shape) := rfl

/-- A name is bound to the reference to itself, and no other name is changed. -/
theorem get?_bind (s : Scope) (key : String) (t : Shape) (name : String) :
    (s.bind key t).get? name = if key = name then some (.var key t) else s.get? name := by
  rw [get?_eq_table, table_bind, Table.get?_insert, ← get?_eq_table]

@[simp] theorem table_opened (s : Scope) : s.opened.table = s.table := rfl

@[simp] theorem get?_opened (s : Scope) (name : String) : s.opened.get? name = s.get? name := by
  rw [get?_eq_table, get?_eq_table, table_opened]

/-- The names of a scope are those of its table. -/
def Agrees (s : Scope) : Prop := s.table.names = s.names

namespace Agrees

variable {s : Scope} {name : String}

/-- A name is bound iff it is among the names. -/
theorem mem_names_iff (hs : s.Agrees) : name ∈ s.names ↔ ∃ e, s.get? name = some e := by
  rw [get?_eq_table, ← Table.mem_names_iff, hs]

theorem contains_iff (hs : s.Agrees) : s.contains name = true ↔ name ∈ s.names := by
  unfold contains
  rw [hs.mem_names_iff, Option.isSome_iff_exists]

theorem get?_eq_none_iff (hs : s.Agrees) : s.get? name = none ↔ name ∉ s.names := by
  rw [hs.mem_names_iff, ← Option.isSome_iff_exists, Option.not_isSome_iff_eq_none]

/-- A fresh name goes to the end of both. -/
theorem bind (hs : s.Agrees) (hfresh : s.get? name = none) (t : Shape) : (s.bind name t).Agrees := by
  rw [get?_eq_table] at hfresh
  unfold Agrees
  rw [table_bind, names_bind, Table.names, Table.entries_insert hfresh, List.map_append, ← Table.names, hs]
  rfl

end Agrees

end Scope

namespace Block

/-! ## What the steps that extend a block do -/

/-- The block after an input is added. -/
def withInput (b : Block) (name : String) (s : Shape) : Block :=
  { b with inputs := b.inputs ++ [⟨name, s⟩], scope := b.scope.bind name s }

/-- The block after an expression is bound to a name. -/
def withDeclaration (b : Block) (name : String) (e : Expr) : Block :=
  { b with
    scope := b.scope.bind name e.shape
    declarations := b.declarations ++ [⟨e.shape, name, e.node⟩] }

/-- An input is added iff it has a name that is not bound and its number names a shape. The checks
are made in another order, which only the errors tell. -/
theorem addInput_eq_ok_iff {b b' : Block} {r : InputRequest} :
    b.addInput r = .ok b' ↔
      r.name ≠ "" ∧ b.scope.get? r.name = none ∧
        ∃ s, r.shape.shape? = some s ∧ b' = b.withInput r.name s := by
  unfold addInput Scope.contains
  by_cases hname : r.name = ""
  · simp [hname, Outcome.fail]
  · rw [if_neg (by simpa using hname)]
    -- a number that names no shape is refused before the name is looked up
    cases hshape : r.shape.shape? with
    | none => simp [ShapeCode.isValid, hshape, Outcome.fail]
    | some s =>
        cases hget : b.scope.get? r.name with
        | some e => simp [ShapeCode.isValid, hshape, Outcome.fail]
        | none =>
            simp only [ShapeCode.isValid, hshape, Option.isSome_some, Option.isSome_none, Bool.not_true,
              Bool.false_eq_true, if_false, Expr.varOfCode_of_shape? hshape, Option.some.injEq,
              exists_eq_left', ne_eq, hname, not_false_eq_true, true_and]
            exact ⟨fun h => (Except.ok.inj h).symm, fun h => congrArg Except.ok h.symm⟩

/-- Adding an input is never at fault: that its number names a shape was made sure before. -/
theorem faultless_addInput (b : Block) (r : InputRequest) : Outcome.Faultless (b.addInput r) := by
  unfold addInput
  split
  · exact Outcome.faultless_error _
  · split
    · exact Outcome.faultless_error _
    · next hvalid =>
        split
        · exact Outcome.faultless_error _
        · -- the only place where a fault could come from: the reference to the new name
          obtain ⟨s, hs⟩ := ShapeCode.isValid_iff.mp (by simpa using hvalid)
          rw [Expr.varOfCode_of_shape? hs]
          exact Outcome.faultless_ok _

/-- A binding is added iff it has a name that is not bound and an expression whose tree is complete.
A missing tree has an error of its own, but it is not complete either. -/
theorem addBinding_eq_ok_iff {b b' : Block} {i : Nat} {bd : Binding} :
    b.addBinding i bd = .ok b' ↔
      bd.name ≠ "" ∧ b.scope.get? bd.name = none ∧
        ∃ e, bd.value = some e ∧ e.node.isComplete = true ∧ b' = b.withDeclaration bd.name e := by
  unfold addBinding Scope.contains
  by_cases hname : bd.name = ""
  · simp [hname]
  · rw [if_neg (by simpa using hname)]
    -- an expression that is not there is refused before one that is incomplete, and a name in scope
    -- last
    split
    · next hvalue => simp [hvalue]
    · next s hvalue => simp [hvalue, Node.isComplete]
    · next e _ hvalue =>
        cases hcomplete : e.node.isComplete with
        | false => simp [hvalue, hcomplete]
        | true =>
            cases hget : b.scope.get? bd.name with
            | some e' => simp
            | none =>
                simp only [Bool.not_true, Bool.false_eq_true, if_false, Option.isSome_none,
                  Except.ok.injEq, hvalue, Option.some.injEq, exists_eq_left', ne_eq, hname,
                  not_false_eq_true, hcomplete, true_and]
                exact eq_comm

/-! ## Loops over these steps -/

theorem Attempt.result_eq_ok_iff {t : Attempt} {b : Block} : t.result = .ok b ↔ t = ⟨b, none⟩ := by
  obtain ⟨b', e⟩ := t
  cases e with
  | none => exact ⟨fun h => by cases h; rfl, fun h => by cases h; rfl⟩
  | some e => exact ⟨nofun, nofun⟩

/-- A call gives a block iff it neither fails nor is at fault. -/
theorem Attempt.outcome_eq_ok_iff {t : Except Fault Attempt} {b : Block} :
    outcome t = .ok b ↔ t = .ok ⟨b, none⟩ := by
  cases t with
  | error f => exact ⟨nofun, nofun⟩
  | ok t =>
      rw [Except.ok.injEq, ← result_eq_ok_iff]
      exact mapError_eq_ok_iff

theorem Attempt.faultless_outcome (t : Attempt) : Outcome.Faultless (outcome (.ok t)) :=
  Outcome.faultless_ofError t.result

/-- Inputs are added one after the other, and the first that can not be added decides the error. As
a fold, this has the lemmas on folds for it. -/
theorem outcome_addInputs (b : Block) (rs : List InputRequest) :
    Attempt.outcome (b.addInputs rs) = rs.foldlM addInput b := by
  induction rs generalizing b with
  | nil => rfl
  | cons r rs ih =>
      rw [addInputs, List.foldlM_cons]
      -- a step goes on, fails or is at fault, and the loop does the same
      cases hadd : b.addInput r with
      | ok b₁ => exact ih b₁
      | error failure =>
          cases failure with
          | error e => rfl
          | fault f => rfl

theorem outcome_ofRequests (rs : List InputRequest) :
    Attempt.outcome (ofRequests rs) = rs.foldlM addInput empty.opened :=
  outcome_addInputs _ rs

/-- A block of inputs is a fold from the empty block, which is given its table first. -/
theorem foldlM_of_ofRequests {rs : List InputRequest} {b : Block} (h : ofRequests rs = .ok ⟨b, none⟩) :
    rs.foldlM addInput empty.opened = .ok b := by
  rw [← outcome_ofRequests]
  exact Attempt.outcome_eq_ok_iff.mpr h

theorem faultless_ofRequests (rs : List InputRequest) : Outcome.Faultless (Attempt.outcome (ofRequests rs)) := by
  rw [outcome_ofRequests]
  exact .foldlM (fun r _ b => faultless_addInput b r) _

/-- Adds bindings to a block, the first of them at an index. -/
def addBindings (b : Block) : Nat → List Binding → Except Error Block
  | _, [] => .ok b
  | i, bd :: bds => do
    let b ← b.addBinding i bd
    b.addBindings (i + 1) bds

namespace Attempt

/-- What a call on a block answers with: the block that it made, or the one that it was given. -/
def ofResult (b : Block) : Except Error Block → Attempt
  | .ok b' => ⟨b', none⟩
  | .error e => ⟨b, some e⟩

variable {b b' : Block} {x : Except Error Block} {e : Error}

theorem ofResult_eq_ok_iff : ofResult b x = ⟨b', none⟩ ↔ x = .ok b' := by
  cases x with
  | ok b₁ => simp [ofResult]
  | error e => simp [ofResult]

theorem result_ofResult (b : Block) (x : Except Error Block) : (ofResult b x).result = x := by
  cases x with
  | ok b₁ => rfl
  | error e => rfl

theorem error_ofResult_eq_some_iff : (ofResult b x).error = some e ↔ x = .error e := by
  cases x with
  | ok b₁ => simp [ofResult]
  | error e' => simp [ofResult]

/-- A call that failed gives back the block that it was given. -/
theorem block_ofResult_of_error (h : (ofResult b x).error = some e) : (ofResult b x).block = b := by
  rw [error_ofResult_eq_some_iff.mp h]
  rfl

end Attempt

/-- However far the copy has got when a binding can not be added, the answer is the block itself.
Induction on the bindings, with any copy. -/
theorem extend_eq (b copy : Block) (i : Nat) (bds : List Binding) :
    b.extend copy i bds = .ofResult b (copy.addBindings i bds) := by
  induction bds generalizing copy i with
  | nil => rfl
  | cons bd bds ih =>
      rw [extend, addBindings]
      cases hadd : copy.addBinding i bd with
      | error e => rfl
      | ok copy' => exact ih copy' (i + 1)

/-- The block with all bindings of a draft, or why there is none. -/
def extension (b : Block) (d : Draft) : Except Error Block :=
  match b.draftError? d with
  | some e => .error e
  | none => b.opened.addBindings 0 d.bindings

/-- **A define step is atomic**: it answers with the extension, or with the block that it was given.
The loop that gives the block back at each step is gone from here on. -/
theorem define_eq (b : Block) (step : Scope → Draft) :
    b.define (some step) = .ofResult b (b.extension (step b.scope)) := by
  unfold define extension
  cases herror : b.draftError? (step b.scope) with
  | some e => simp only [herror, Attempt.ofResult]
  | none => simp only [herror, extend_eq]

/-- A define step that fails gives back the block that it was given, also if there was no step to
run. -/
theorem block_define_of_error {b : Block} {step : Option (Scope → Draft)} {e : Error}
    (h : (b.define step).error = some e) : (b.define step).block = b := by
  cases step with
  | none => rfl
  | some draft =>
      rw [define_eq] at h ⊢
      exact Attempt.block_ofResult_of_error h

/-- A property that every added binding keeps is kept by a list of bindings. The steps may use which
binding it is, so that what is known of all bindings of a draft can be used on each. -/
theorem addBindings_induction {P : Block → Prop} {bds : List Binding}
    (hstep : ∀ b bd e, bd ∈ bds → bd.value = some e → bd.name ≠ "" → b.scope.get? bd.name = none →
      e.node.isComplete = true → P b → P (b.withDeclaration bd.name e))
    {b b' : Block} {i : Nat} (hb : P b) (h : b.addBindings i bds = .ok b') : P b' := by
  induction bds generalizing b i with
  | nil =>
      rw [addBindings, Except.ok.injEq] at h
      rwa [← h]
  | cons bd bds ih =>
      rw [addBindings] at h
      obtain ⟨b₁, h₁, h₂⟩ := bind_eq_ok_iff.mp h
      obtain ⟨hname, hfresh, e, hvalue, hcomplete, rfl⟩ := addBinding_eq_ok_iff.mp h₁
      have hP := hstep b bd e List.mem_cons_self hvalue hname hfresh hcomplete hb
      -- the bindings that are left are bindings of the list
      exact ih (fun b bd e hmem => hstep b bd e (List.mem_cons_of_mem _ hmem)) hP h₂

/-- A define step that succeeds made a draft without errors, and its bindings were added. -/
theorem define_eq_ok_iff {b b' : Block} {step : Option (Scope → Draft)} :
    b.define step = ⟨b', none⟩ ↔
      ∃ draft, step = some draft ∧ b.draftError? (draft b.scope) = none ∧
        b.opened.addBindings 0 (draft b.scope).bindings = .ok b' := by
  cases step with
  | none => simp [define]
  | some draft =>
      rw [define_eq, Attempt.ofResult_eq_ok_iff]
      unfold extension
      cases herror : b.draftError? (draft b.scope) with
      | some e => simp [herror]
      | none => simp [herror]

/-! ## The invariant

The names in scope are the listing of inputs and declarations, and so is the table. Everything that a caller
can ask of the names in scope follows from this and from the names being distinct. -/

/-- The inputs and then the declarations, each name beside the reference to itself. -/
def listing (b : Block) : List (String × Expr) :=
  b.inputs.map (fun i => (i.name, .var i.name i.shape)) ++
    b.declarations.map (fun d => (d.name, .var d.name d.shape))

/-- The lists of a block and its table agree. -/
structure Consistent (b : Block) : Prop where
  agrees : b.scope.Agrees
  entries_eq : b.scope.table.entries = b.listing
  nodup : b.scope.names.Nodup
  named : "" ∉ b.scope.names
  complete : ∀ d ∈ b.declarations, d.value.isComplete = true

theorem consistent_empty : empty.Consistent where
  agrees := rfl
  entries_eq := rfl
  nodup := List.nodup_nil
  named := List.not_mem_nil
  complete := fun _ hd => absurd hd List.not_mem_nil

/-- A block that is given a table holds what it held. -/
theorem Consistent.opened {b : Block} (hb : b.Consistent) : b.opened.Consistent :=
  ⟨hb.agrees, hb.entries_eq, hb.nodup, hb.named, hb.complete⟩

/-- Binding a fresh name keeps names distinct and not empty. -/
theorem Consistent.names_bind {b : Block} (hb : b.Consistent) {name : String} (s : Shape)
    (hname : name ≠ "") (hfresh : b.scope.get? name = none) :
    (b.scope.bind name s).names.Nodup ∧ "" ∉ (b.scope.bind name s).names := by
  rw [hb.agrees.get?_eq_none_iff] at hfresh
  rw [Scope.names_bind, List.nodup_append]
  constructor
  · -- the only name that could repeat is the fresh one
    refine ⟨hb.nodup, List.pairwise_singleton _ name, fun x hx y hy hxy => ?_⟩
    rw [hxy, List.mem_singleton.mp hy] at hx
    exact hfresh hx
  · rw [List.mem_append, List.mem_singleton]
    rintro (hmem | hempty)
    · exact hb.named hmem
    · exact hname hempty.symm

/-- The table of the scope with one more name goes on with that name, since it was free. -/
theorem Consistent.entries_bind {b : Block} (hb : b.Consistent) {name : String} (s : Shape)
    (hfresh : b.scope.get? name = none) :
    (b.scope.bind name s).table.entries = b.listing ++ [(name, .var name s)] := by
  rw [Scope.get?_eq_table] at hfresh
  rw [Scope.table_bind, Table.entries_insert hfresh, hb.entries_eq]

/-- Inputs stand first in the listing, so a block gets another only before its declarations. -/
theorem Consistent.withInput {b : Block} (hb : b.Consistent) (hnone : b.declarations = [])
    {name : String} (s : Shape) (hname : name ≠ "") (hfresh : b.scope.get? name = none) :
    (b.withInput name s).Consistent where
  agrees := hb.agrees.bind hfresh s
  entries_eq := by
    rw [Block.withInput, hb.entries_bind s hfresh]
    simp [listing, hnone]
  nodup := (hb.names_bind s hname hfresh).1
  named := (hb.names_bind s hname hfresh).2
  complete := hb.complete

/-- A declaration of a fresh name keeps the invariant: it goes to the end of all lists and of the
table. -/
theorem Consistent.withDeclaration {b : Block} (hb : b.Consistent) {name : String} {e : Expr}
    (hname : name ≠ "") (hfresh : b.scope.get? name = none) (hcomplete : e.node.isComplete = true) :
    (b.withDeclaration name e).Consistent where
  agrees := hb.agrees.bind hfresh e.shape
  entries_eq := by
    rw [Block.withDeclaration, hb.entries_bind e.shape hfresh]
    simp [listing]
  nodup := (hb.names_bind e.shape hname hfresh).1
  named := (hb.names_bind e.shape hname hfresh).2
  complete := by
    intro d hd
    -- the old declarations, and the new one
    rcases List.mem_append.mp hd with hold | hnew
    · exact hb.complete d hold
    · rw [List.mem_singleton.mp hnew]
      exact hcomplete

/-- A block of inputs is consistent and has no declarations yet. Induction on the requests, from any
block that is so. -/
theorem Consistent.foldlM_addInput {rs : List InputRequest} {b b' : Block} (hb : b.Consistent)
    (hnone : b.declarations = []) (h : rs.foldlM addInput b = .ok b') :
    b'.Consistent ∧ b'.declarations = [] := by
  induction rs generalizing b with
  | nil =>
      rw [List.foldlM_nil] at h
      cases h
      exact ⟨hb, hnone⟩
  | cons r rs ih =>
      rw [List.foldlM_cons] at h
      obtain ⟨b₁, h₁, h₂⟩ := bind_eq_ok_iff.mp h
      obtain ⟨hname, hfresh, s, _, rfl⟩ := addInput_eq_ok_iff.mp h₁
      exact ih (hb.withInput hnone s hname hfresh) hnone h₂

/-- A block of inputs has the invariant and no declarations. -/
theorem consistent_of_ofRequests {rs : List InputRequest} {b : Block} (h : ofRequests rs = .ok ⟨b, none⟩) :
    b.Consistent ∧ b.declarations = [] :=
  consistent_empty.opened.foldlM_addInput rfl (foldlM_of_ofRequests h)

/-- A define step keeps the invariant, since each binding that it adds does. -/
theorem Consistent.define {b b' : Block} (hb : b.Consistent) {step : Option (Scope → Draft)}
    (h : b.define step = ⟨b', none⟩) : b'.Consistent := by
  obtain ⟨draft, _, _, hadd⟩ := define_eq_ok_iff.mp h
  exact addBindings_induction
    (fun _ _ _ _ _ hname hfresh hcomplete hb => hb.withDeclaration hname hfresh hcomplete) hb.opened hadd

/-! ## What a consistent block answers -/

/-- The block declares a name with a shape, as an input or by a declaration. -/
def Declares (b : Block) (name : String) (s : Shape) : Prop :=
  ⟨name, s⟩ ∈ b.inputs ∨ ∃ d ∈ b.declarations, d.name = name ∧ d.shape = s

/-- The names in scope are those of the inputs and then those of the declarations. -/
theorem Consistent.names_eq {b : Block} (hb : b.Consistent) :
    b.scope.names = b.inputs.map Input.name ++ b.declarations.map Declaration.name := by
  rw [← hb.agrees, Table.names, hb.entries_eq, listing, List.map_append, List.map_map, List.map_map]
  rfl

/-- The listing has the declared names, each with the reference to itself. -/
theorem mem_listing_iff {b : Block} {name : String} {e : Expr} :
    (name, e) ∈ b.listing ↔ ∃ s, b.Declares name s ∧ e = .var name s := by
  unfold listing Declares
  rw [List.mem_append, List.mem_map, List.mem_map]
  constructor
  · rintro (⟨i, hi, heq⟩ | ⟨d, hd, heq⟩)
    · obtain ⟨rfl, rfl⟩ := Prod.mk.inj heq
      exact ⟨i.shape, .inl hi, rfl⟩
    · obtain ⟨rfl, rfl⟩ := Prod.mk.inj heq
      exact ⟨d.shape, .inr ⟨d, hd, rfl, rfl⟩, rfl⟩
  · rintro ⟨s, hi | ⟨d, hd, rfl, rfl⟩, rfl⟩
    · exact .inl ⟨_, hi, rfl⟩
    · exact .inr ⟨d, hd, rfl⟩

/-- **The scope binds exactly the declared names**, each to the reference to itself of its declared
shape. The table is the listing, and with distinct names a look-up finds all of it. -/
theorem Consistent.get?_eq_some_iff {b : Block} (hb : b.Consistent) {name : String} {e : Expr} :
    b.scope.get? name = some e ↔ ∃ s, b.Declares name s ∧ e = .var name s := by
  rw [Scope.get?_eq_table, Table.get?_eq_some_iff (by rw [hb.agrees]; exact hb.nodup), hb.entries_eq,
    mem_listing_iff]

theorem hasReturn_iff {b : Block} :
    b.hasReturn = true ↔ ∃ d ∈ b.declarations, d.name = returnName := by
  unfold hasReturn
  rw [List.any_eq_true]
  exact exists_congr fun d => and_congr_right fun _ => beq_iff_eq

/-- The result of a block is the reference to its declaration of the result, if it has one. -/
theorem Consistent.returns_eq_ok_iff {b : Block} (hb : b.Consistent) {e : Expr} :
    b.returns = .ok e ↔
      ∃ d ∈ b.declarations, d.name = returnName ∧ e = .var returnName d.shape := by
  unfold returns
  constructor
  · intro h
    split at h
    · next e' hreturn hget =>
        rw [Except.ok.injEq] at h
        obtain ⟨d, hd, hname⟩ := hasReturn_iff.mp hreturn
        -- the declaration binds the name too, and a look-up has one answer
        have hbound := hb.get?_eq_some_iff.mpr ⟨d.shape, .inr ⟨d, hd, hname, rfl⟩, rfl⟩
        rw [hget, Option.some.injEq] at hbound
        exact ⟨d, hd, hname, h.symm.trans hbound⟩
    · cases h
  · rintro ⟨d, hd, hname, rfl⟩
    rw [hasReturn_iff.mpr ⟨d, hd, hname⟩,
      hb.get?_eq_some_iff.mpr ⟨d.shape, .inr ⟨d, hd, hname, rfl⟩, rfl⟩]

/-- A block without a declaration of the result says so, whatever its inputs are called: an input of
that name does not count. -/
theorem returns_eq_error {b : Block} (h : ∀ d ∈ b.declarations, d.name ≠ returnName) :
    b.returns = .error (.bare .missingReturn) := by
  have hreturn : b.hasReturn = false := by
    rw [Bool.eq_false_iff]
    intro htrue
    obtain ⟨d, hd, hname⟩ := hasReturn_iff.mp htrue
    exact h d hd hname
  unfold returns
  rw [hreturn]

/-- A function of a block lacks nothing, since it is checked before it is given out. -/
theorem check_of_function {b : Block} {name : String} {fn : Function}
    (h : b.function name = .ok fn) : fn.check = .ok () := by
  obtain ⟨_, _, h⟩ := bind_eq_ok_iff.mp h
  obtain ⟨_, hcheck, h⟩ := bind_eq_ok_iff.mp h
  cases h
  exact hcheck

/-- The function of a block: its inputs are the parameters, and it returns the declared result. -/
theorem Consistent.function_eq_ok {b : Block} (hb : b.Consistent) {name : String} {fn : Function}
    (h : b.function name = .ok fn) :
    ∃ t, b.Declares returnName t ∧
      fn = ⟨name, t.name, b.inputs.map Input.param, b.statements, .var returnName⟩ := by
  unfold function at h
  obtain ⟨e, he, hrest⟩ := bind_eq_ok_iff.mp h
  obtain ⟨d, hd, hname, rfl⟩ := hb.returns_eq_ok_iff.mp (mapError_eq_ok_iff.mp he)
  obtain ⟨_, _, hfn⟩ := bind_eq_ok_iff.mp hrest
  cases hfn
  exact ⟨d.shape, .inr ⟨d, hd, hname, rfl⟩, rfl⟩

/-- Only the empty block has no table: every other way to make a block gives it one. -/
theorem Consistent.vars_eq_none_iff {b : Block} (hb : b.Consistent) : b.scope.vars = none ↔ b = .empty := by
  constructor
  · intro hvars
    have hlisting : b.listing = [] := by
      rw [← hb.entries_eq, Scope.table, hvars]
      rfl
    obtain ⟨hinputs, hdeclarations⟩ := List.append_eq_nil_iff.mp hlisting
    rw [List.map_eq_nil_iff] at hinputs hdeclarations
    have hnames := hb.names_eq
    rw [hinputs, hdeclarations] at hnames
    -- no entries, so no inputs and no declarations, and the names are theirs
    obtain ⟨inputs, ⟨names, vars⟩, declarations⟩ := b
    cases hinputs
    cases hdeclarations
    cases hvars
    cases hnames
    rfl
  · rintro rfl
    rfl

/-! ## Every run of define steps

A run begins with the empty block or with a block of inputs and goes on with define steps. It goes on with
the block that a step gives back, also if the step failed. -/

/-- The blocks that can be built. -/
inductive Reachable : Block → Prop where
  | empty : Reachable .empty
  | ofRequests {rs : List InputRequest} {b : Block} (h : Block.ofRequests rs = .ok ⟨b, none⟩) : Reachable b
  | define {b : Block} (hb : Reachable b) (step : Option (Scope → Draft)) : Reachable (b.define step).block

/-- **Every block that can be built has the invariant.** Induction on how it was built; a step that
failed gave the same block. -/
theorem Reachable.consistent {b : Block} (hb : b.Reachable) : b.Consistent := by
  induction hb with
  | empty => exact consistent_empty
  | ofRequests h => exact (consistent_of_ofRequests h).1
  | @define b _ step ih =>
      cases herror : (b.define step).error with
      | none => exact ih.define (congrArg (Attempt.mk _) herror)
      | some e =>
          rw [block_define_of_error herror]
          exact ih

/-- **What is known of a block that was built.** The names in scope are those of the inputs and then
those of the declarations, distinct and not empty; the names that have an entry in the table are the same,
and only the empty block has no table; each name is bound to the reference to itself with the shape that it
was declared with, one of the seven, and nothing else is bound; every declaration has a complete tree; and
the result is the reference to the declaration of the result, where there is one. -/
theorem Reachable.representation {b : Block} (hb : b.Reachable) :
    b.scope.names = b.inputs.map Input.name ++ b.declarations.map Declaration.name ∧
      b.scope.names.Nodup ∧ "" ∉ b.scope.names ∧
      (∀ name, b.scope.contains name = true ↔ name ∈ b.scope.names) ∧
      (b.scope.vars = none ↔ b = .empty) ∧
      (∀ name e, b.scope.get? name = some e ↔ ∃ s, b.Declares name s ∧ e = .var name s) ∧
      (∀ name s, b.Declares name s → s ∈ Shape.all) ∧
      (∀ d ∈ b.declarations, d.value.isComplete = true) ∧
      (∀ e, b.returns = .ok e ↔
        ∃ d ∈ b.declarations, d.name = returnName ∧ e = .var returnName d.shape) ∧
      ((∀ d ∈ b.declarations, d.name ≠ returnName) →
        b.returns = .error (.bare .missingReturn)) := by
  have hc := hb.consistent
  exact ⟨hc.names_eq, hc.nodup, hc.named, fun _ => hc.agrees.contains_iff, hc.vars_eq_none_iff,
    fun _ _ => hc.get?_eq_some_iff, fun _ s _ => Shape.mem_all s, hc.complete,
    fun _ => hc.returns_eq_ok_iff, returns_eq_error⟩

/-- A block with an input, a step that declares the result and a step that fails, since it binds the
name of the input. -/
def sampleRun : Block :=
  (((empty.withInput "uv" .vec2).define
    (some fun s => ⟨[⟨"uv", .vec2⟩], [⟨"returns", s.get? "uv"⟩], none⟩)).block.define
      (some fun _ =>
        ⟨[], [⟨"returns2", some (.var "uv" .vec2)⟩, ⟨"uv", some (.var "uv" .vec2)⟩], none⟩)).block

/-- The failed step leaves no trace, not even of the binding before the one that it failed at. -/
theorem Reachable.representation_sampleRun :
    sampleRun.Reachable ∧ sampleRun.scope.names = ["uv", "returns"] ∧
      sampleRun.returns = .ok (.var "returns" .vec2) := by
  have hinput : (Block.empty.withInput "uv" .vec2).Reachable :=
    @Reachable.ofRequests [⟨"uv", Shape.vec2.code⟩] _ rfl
  have hrun : sampleRun.Reachable := .define (.define hinput _) _
  obtain ⟨hnames, _, _, _, _, _, _, _, hreturns, _⟩ := hrun.representation
  have hdecl : sampleRun.declarations = [⟨.vec2, "returns", .var "uv"⟩] := rfl
  refine ⟨hrun, ?_, ?_⟩
  · rw [hnames, hdecl]
    rfl
  · rw [hreturns, hdecl]
    exact ⟨_, List.mem_singleton_self _, rfl, rfl⟩

end Block

end ShaderExpr
