import ShaderExpr.Proofs.Block.Representation

/-!
# Extending blocks

A define step only adds declarations at the end of a block, one for each of its bindings. What it adds
depends on little of the block: the same step on the block with one more input adds the same
declarations, unless one of its bindings has the name of that input.

* **`addBindings_eq_ok`** — the bindings that were added are those of the new declarations.
* **`insertInput`** — the block with one more input.
* **`addBindings_insertInput`** — adding bindings to the block with one more input.
-/

namespace ShaderExpr

/-- What one scope binds, another binds to the same. -/
def Scope.Extends (s' s : Scope) : Prop := ∀ name e, s.get? name = some e → s'.get? name = some e

/-- The binding that a declaration comes from. -/
def Declaration.binding (d : Declaration) : Binding := ⟨d.name, some ⟨d.shape, d.value⟩⟩

namespace Block

variable {b b' : Block}

/-- Adding bindings keeps the inputs and puts one declaration for each binding after the others.
Induction on the bindings, from any block. -/
theorem addBindings_eq_ok {index : Nat} {bds : List Binding} (h : b.addBindings index bds = .ok b') :
    b'.inputs = b.inputs ∧
      ∃ ds, bds = ds.map Declaration.binding ∧ b'.declarations = b.declarations ++ ds := by
  induction bds generalizing b index with
  | nil =>
      rw [addBindings, Except.ok.injEq] at h
      subst h
      exact ⟨rfl, [], rfl, (List.append_nil _).symm⟩
  | cons bd bds ih =>
      rw [addBindings] at h
      obtain ⟨b₁, h₁, h₂⟩ := bind_eq_ok_iff.mp h
      -- a binding that was added has an expression, which is declared under its name
      obtain ⟨_, _, e, hvalue, _, rfl⟩ := addBinding_eq_ok_iff.mp h₁
      obtain ⟨hinputs, ds, rfl, hdeclarations⟩ := ih h₂
      refine ⟨hinputs, ⟨e.shape, bd.name, e.node⟩ :: ds, ?_, ?_⟩
      · rw [List.map_cons, Declaration.binding, ← hvalue]
      · rw [hdeclarations]
        exact List.append_assoc _ _ _

theorem Consistent.addBindings {index : Nat} {bds : List Binding} (hb : b.Consistent)
    (h : b.addBindings index bds = .ok b') : b'.Consistent :=
  addBindings_induction
    (fun _ _ _ _ _ hname hfresh hcomplete hb => hb.withDeclaration hname hfresh hcomplete) hb h

theorem mem_names_addBindings {index : Nat} {bds : List Binding} {name : String}
    (hname : name ∈ b.scope.names) (h : b.addBindings index bds = .ok b') : name ∈ b'.scope.names := by
  refine addBindings_induction (P := fun b => name ∈ b.scope.names) ?_ hname h
  intro b bd e _ _ _ _ _ hmem
  show name ∈ (b.scope.bind bd.name e.shape).names
  rw [Scope.names_bind]
  exact List.mem_append_left _ hmem

/-- A binding that lacks nothing is refused if its name is bound. The name is the last that is
checked. -/
theorem addBinding_duplicate {index : Nat} {bd : Binding} {e : Expr} (hname : bd.name ≠ "")
    (hvalue : bd.value = some e) (hcomplete : e.node.isComplete = true)
    (hbound : b.scope.contains bd.name = true) :
    b.addBinding index bd = .error (.cause (.duplicateName bd.name)) := by
  unfold addBinding
  rw [if_neg (by simpa using hname), hvalue]
  split
  · next hnone => cases hnone
  · next hmissing =>
      cases hmissing
      cases hcomplete
  · next hsome =>
      cases hsome
      rw [hcomplete]
      simp [hbound]

/-! ## One more input -/

/-- The block with one more input, and its scope to match: the new name stands after those of the other
inputs and before those of the declarations. -/
def insertInput (b : Block) (i : Input) : Block :=
  let b' := { b with inputs := b.inputs ++ [i] }
  { b' with scope := ⟨b'.listing.map Prod.fst, some ⟨b'.listing⟩⟩ }

variable {i : Input}

/-- The block with one more input has a table, whether or not the block had. -/
theorem insertInput_opened (b : Block) (i : Input) : b.opened.insertInput i = (b.insertInput i).opened := rfl

/-- The new name stands between those of the inputs and those of the declarations. -/
theorem names_insertInput (b : Block) (i : Input) :
    (b.insertInput i).scope.names =
      b.inputs.map Input.name ++ i.name :: b.declarations.map Declaration.name := by
  unfold insertInput listing
  simp [Function.comp_def]

/-- One name more is in scope, wherever it stands. -/
theorem Consistent.mem_names_insertInput (hb : b.Consistent) {name : String} :
    name ∈ (b.insertInput i).scope.names ↔ name = i.name ∨ name ∈ b.scope.names := by
  rw [names_insertInput, hb.names_eq]
  simp only [List.mem_append, List.mem_cons]
  exact or_left_comm

/-- The block with one more input has the invariant, if the name is new. The names are those from
before with one more among them, which stay distinct in any order. -/
theorem Consistent.insertInput (hb : b.Consistent) (hname : i.name ≠ "")
    (hi : i.name ∉ b.scope.names) : (b.insertInput i).Consistent where
  agrees := rfl
  entries_eq := rfl
  nodup := by
    rw [names_insertInput, List.perm_middle.nodup_iff, ← hb.names_eq, List.nodup_cons]
    exact ⟨hi, hb.nodup⟩
  named := by
    rw [hb.mem_names_insertInput]
    rintro (hempty | hempty)
    · exact hname hempty.symm
    · exact hb.named hempty
  complete := hb.complete

/-- Names that were in scope stand for what they stood for, since declarations decide that and there
are only more of them. -/
theorem Consistent.extends_insertInput (hb : b.Consistent) (hname : i.name ≠ "")
    (hi : i.name ∉ b.scope.names) : (b.insertInput i).scope.Extends b.scope := by
  intro name e hget
  obtain ⟨s, hdeclares, rfl⟩ := hb.get?_eq_some_iff.mp hget
  refine (hb.insertInput hname hi).get?_eq_some_iff.mpr ⟨s, ?_, rfl⟩
  exact hdeclares.imp_left (List.mem_append_left _)

/-- A declaration of a free name comes last, with or without one more input before the declarations.
So the input and the declaration may be added in either order. -/
theorem insertInput_withDeclaration {name : String} (e : Expr)
    (hfresh : (b.insertInput i).scope.get? name = none) :
    (b.insertInput i).withDeclaration name e = (b.withDeclaration name e).insertInput i := by
  rw [Scope.get?_eq_table] at hfresh
  have htable := Table.entries_insert hfresh (Expr.var name e.shape)
  unfold withDeclaration
  rw [Scope.bind, Scope.insert, show Table.insert _ _ _ = ⟨_⟩ from congrArg Table.mk htable]
  simp [insertInput, listing, Scope.table]

/-- A binding goes to the block with one more input as to the block without it, unless it has the name
of the input. -/
theorem Consistent.addBinding_insertInput (hb : b.Consistent) (hiname : i.name ≠ "")
    (hi : i.name ∉ b.scope.names) {index : Nat} {bd : Binding} (h : b.addBinding index bd = .ok b') :
    (b.insertInput i).addBinding index bd =
      if bd.name = i.name then .error (.cause (.duplicateName i.name))
      else .ok (b'.insertInput i) := by
  obtain ⟨hname, hfresh, e, hvalue, hcomplete, rfl⟩ := addBinding_eq_ok_iff.mp h
  have hagrees := (hb.insertInput hiname hi).agrees
  split
  · next heq =>
      -- the binding lacks nothing but a free name
      rw [← heq]
      refine addBinding_duplicate hname hvalue hcomplete (hagrees.contains_iff.mpr ?_)
      exact hb.mem_names_insertInput.mpr (.inl heq)
  · next hne =>
      -- the name was free and it is not that of the input
      have hfresh' : (b.insertInput i).scope.get? bd.name = none := by
        rw [hagrees.get?_eq_none_iff, hb.mem_names_insertInput]
        rintro (heq | hmem)
        · exact hne heq
        · exact hb.agrees.get?_eq_none_iff.mp hfresh hmem
      exact addBinding_eq_ok_iff.mpr
        ⟨hname, hfresh', e, hvalue, hcomplete, (insertInput_withDeclaration e hfresh').symm⟩

/-- **Bindings over one more input.** They are added as without it, unless one of them has its name.
Induction on the bindings; the one that has the name is the first that is refused. -/
theorem Consistent.addBindings_insertInput (hb : b.Consistent) (hiname : i.name ≠ "")
    (hi : i.name ∉ b.scope.names) {index : Nat} {bds : List Binding} (h : b.addBindings index bds = .ok b') :
    (b.insertInput i).addBindings index bds =
      if i.name ∈ b'.scope.names then .error (.cause (.duplicateName i.name))
      else .ok (b'.insertInput i) := by
  induction bds generalizing b index with
  | nil =>
      rw [Block.addBindings, Except.ok.injEq] at h
      subst h
      rw [Block.addBindings, if_neg hi]
  | cons bd bds ih =>
      rw [Block.addBindings] at h
      obtain ⟨b₁, h₁, h₂⟩ := bind_eq_ok_iff.mp h
      rw [Block.addBindings, hb.addBinding_insertInput hiname hi h₁]
      obtain ⟨hname, hfresh, e, _, hcomplete, rfl⟩ := addBinding_eq_ok_iff.mp h₁
      have hnames : (b.withDeclaration bd.name e).scope.names = b.scope.names ++ [bd.name] :=
        Scope.names_bind ..
      by_cases heq : bd.name = i.name
      · -- refused here, and the name is among those of the extended block
        have hmem : i.name ∈ b'.scope.names := by
          refine mem_names_addBindings ?_ h₂
          rw [hnames, ← heq]
          exact List.mem_append_right _ (List.mem_singleton_self _)
        rw [if_pos heq, if_pos hmem]
        rfl
      · -- the input is new for the extended block too
        rw [if_neg heq]
        refine ih (hb.withDeclaration hname hfresh hcomplete) ?_ h₂
        rw [hnames, List.mem_append, List.mem_singleton]
        rintro (hmem | hmem)
        · exact hi hmem
        · exact heq hmem.symm

end Block

end ShaderExpr
