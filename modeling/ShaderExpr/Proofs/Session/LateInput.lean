import ShaderExpr.Proofs.Description.Reading
import ShaderExpr.Proofs.Session.Replay
import ShaderExpr.Proofs.Text.Words

/-!
# Inputs that come late

An input may be declared after define steps were taken, and then the block is built again: all steps are
read once more, in a scope that has one more name. This module shows that nothing but that name is new.
No step reads a name that it did not read before, so each of them declares what it declared, unless it
declares the name of the input; then the input is refused.

* **`ofInputs_append`** — one more input before any step.
* **`Consistent.foldlM_defineSessionStep_insertInput`** — the steps, done again over the block with one
  more input.
* **`replay_append_input`** — the two together: building the block again gives the block with one more
  input, or refuses a name that is in scope.
* **`Replayable.addInput`** — what declaring an input does to a session.
-/

namespace ShaderExpr

namespace Block

variable {b b' : Block} {i : Input}

/-! ## Before any step -/

/-- Among inputs alone, the end is where a new input belongs. -/
theorem Consistent.withInput_eq_insertInput (hb : b.Consistent) (hnone : b.declarations = [])
    (hfresh : b.scope.get? i.name = none) : b.withInput i.name i.shape = b.insertInput i := by
  have hnames : b.scope.names = b.listing.map Prod.fst :=
    hb.agrees.symm.trans (congrArg (List.map Prod.fst) hb.entries_eq)
  have htable : b.scope.table.insert i.name (.var i.name i.shape) = ⟨b.listing ++ [(i.name, .var i.name i.shape)]⟩ :=
    congrArg Table.mk (hb.entries_bind i.shape hfresh)
  unfold Block.withInput Block.insertInput Scope.bind Scope.insert
  rw [hnames, htable]
  simp [listing, hnone]

/-- A block of inputs takes one more, unless its name is among theirs. -/
theorem ofInputs_append {inputs : List Input} (hname : i.name ≠ "")
    (h : ofInputs inputs = .ok ⟨b, none⟩) :
    Attempt.outcome (ofInputs (inputs ++ [i])) =
      if i.name ∈ b.scope.names then Outcome.fail (.duplicateInput i.name) else .ok (b.insertInput i) := by
  obtain ⟨hb, hnone⟩ := consistent_of_ofRequests h
  -- the inputs before it are taken as they were
  have hadd : Attempt.outcome (ofInputs (inputs ++ [i])) = b.addInput i.request := by
    unfold ofInputs
    rw [outcome_ofRequests, List.map_append, List.foldlM_append, foldlM_of_ofRequests h]
    show (b.addInput i.request >>= pure) = _
    rw [bind_pure]
  rw [hadd]
  split
  · next hmem =>
      have hvalid : i.shape.code.isValid = true := ShapeCode.isValid_iff.mpr ⟨_, Shape.shape?_code _⟩
      unfold addInput Input.request
      rw [if_neg (by simpa using hname)]
      simp [hvalid, hb.agrees.contains_iff.mpr hmem]
  · next hfresh =>
      have hfresh := hb.agrees.get?_eq_none_iff.mpr hfresh
      rw [addInput_eq_ok_iff]
      exact ⟨hname, hfresh, i.shape, Shape.shape?_code _, (hb.withInput_eq_insertInput hnone hfresh).symm⟩

/-! ## The steps again -/

/-- A name that is in scope stays there: define steps only add names. -/
theorem mem_names_foldlM_defineSessionStep {steps : List SessionStep} {name : String}
    (hname : name ∈ b.scope.names) (h : steps.foldlM defineSessionStep b = .ok b') :
    name ∈ b'.scope.names := by
  refine foldlM_induction (P := fun b => name ∈ b.scope.names) ?_ hname h
  intro b step b' _ hmem hstep
  obtain ⟨_, _, _, _, _, hadd⟩ := defineStep_eq_ok_iff.mp hstep
  exact @mem_names_addBindings b.opened b' _ _ _ hmem hadd

/-- **Define steps over one more input.** They add what they add without it, unless one of them binds
its name. Induction on the steps: as long as none did, the two blocks differ in the input only. -/
theorem Consistent.foldlM_defineSessionStep_insertInput (hb : b.Consistent) (hname : i.name ≠ "")
    (hi : i.name ∉ b.scope.names) {steps : List SessionStep}
    (h : steps.foldlM defineSessionStep b = .ok b') :
    steps.foldlM defineSessionStep (b.insertInput i) =
      if i.name ∈ b'.scope.names then Outcome.fail (.duplicateName i.name)
      else .ok (b'.insertInput i) := by
  induction steps generalizing b with
  | nil =>
      rw [List.foldlM_nil] at h
      cases h
      rw [if_neg hi]
      rfl
  | cons step steps ih =>
      rw [List.foldlM_cons] at h
      obtain ⟨b₁, h₁, h₂⟩ := bind_eq_ok_iff.mp h
      have hstep : (b.insertInput i).defineSessionStep step = _ :=
        hb.defineStep_insertInput hname hi h₁
      rw [List.foldlM_cons, hstep]
      by_cases hmem : i.name ∈ b₁.scope.names
      · -- this step binds the name, and no later one is reached
        rw [if_pos hmem, if_pos (mem_names_foldlM_defineSessionStep hmem h₂)]
        rfl
      · rw [if_neg hmem]
        exact ih (hb.defineStep h₁) hmem h₂

end Block

namespace Session

variable {inputs : List Input} {steps : List SessionStep} {b : Block} {i : Input}

/-- **A block built again with one more input.** A name that is in scope is refused, by the inputs or by
the step that binds it; with any other name the block is as it was, with one more input. -/
theorem replay_append_input (hname : i.name ≠ "") (h : replay inputs steps = .ok b) :
    if i.name ∈ b.scope.names then
      ∃ e, replay (inputs ++ [i]) steps = .error (.error e) ∧ e.isKind .duplicateBinding = true
    else replay (inputs ++ [i]) steps = .ok (b.insertInput i) := by
  obtain ⟨b₀, hinputs, hsteps⟩ := replay_eq_ok_iff.mp h
  have hb₀ := (Block.consistent_of_ofRequests hinputs).1
  unfold replay
  rw [Block.ofInputs_append hname hinputs]
  -- the name of an input is refused at once, the name of a declaration by the step that binds it
  by_cases hmem₀ : i.name ∈ b₀.scope.names
  · rw [if_pos (Block.mem_names_foldlM_defineSessionStep hmem₀ hsteps), if_pos hmem₀]
    exact ⟨_, rfl, rfl⟩
  · have hagain := hb₀.foldlM_defineSessionStep_insertInput hname hmem₀ hsteps
    rw [if_neg hmem₀]
    split
    · next hmem =>
        rw [if_pos hmem] at hagain
        exact ⟨_, congrArg (Outcome.inside _) hagain, rfl⟩
    · next hmem =>
        rw [if_neg hmem] at hagain
        exact congrArg (Outcome.inside _) hagain

/-! ## The line that declares an input -/

variable {s : Session} {line : String}

/-- **Declaring an input late.** It is refused as a repeated name iff its name is in scope; else the
block gets one more input, and nothing else changes. -/
theorem Replayable.addInput (hs : s.Replayable) {name shapeName : String} {shape : Shape}
    (hname : name ≠ "") (hshape : Shape.ofName? shapeName = some shape) :
    if name ∈ s.block.scope.names then
      ∃ e, (addInput name shapeName).run s = .error (.error e) s ∧ e.isKind .duplicateBinding = true
    else (addInput name shapeName).run s =
      .ok (.text (shape.name ++ " " ++ name))
        ⟨s.inputs ++ [⟨name, shape⟩], s.steps, s.block.insertInput ⟨name, shape⟩⟩ := by
  have hreplay : if name ∈ s.block.scope.names then
        ∃ e, replay (s.inputs ++ [⟨name, shape⟩]) s.steps = .error (.error e) ∧
          e.isKind .duplicateBinding = true
      else replay (s.inputs ++ [⟨name, shape⟩]) s.steps = .ok (s.block.insertInput ⟨name, shape⟩) :=
    @replay_append_input _ _ s.block.opened ⟨name, shape⟩ hname hs
  unfold Session.addInput
  rw [hshape]
  split
  · next hmem =>
      rw [if_pos hmem] at hreplay
      obtain ⟨e, hfail, hkind⟩ := hreplay
      refine ⟨e, run_bind_eq_error_iff.mpr (.inr ⟨s, s, rfl, ?_⟩), hkind⟩
      exact run_bind_eq_error_iff.mpr (.inl (run_lift_eq_error_iff.mpr ⟨hfail, rfl⟩))
  · next hfresh =>
      rw [if_neg hfresh] at hreplay
      refine run_bind_eq_ok_iff.mpr ⟨s, s, rfl, ?_⟩
      exact run_bind_eq_ok_iff.mpr ⟨_, s, run_lift_eq_ok_iff.mpr ⟨hreplay, rfl⟩, rfl⟩

/-- A line whose first word begins with a colon is a command. -/
theorem startsWith_of_words {w : String} {ws : List String} (hwords : Text.words line = w :: ws)
    (hcolon : w.toList.head? = some ':') : (Text.trim line).startsWith ":" = true := by
  have hhead := Text.head?_trim_of_words hwords
  rw [hcolon, List.head?_eq_some_iff] at hhead
  obtain ⟨cs, hcs⟩ := hhead
  rw [String.startsWith_string_iff, hcs]
  exact ⟨cs, rfl⟩

theorem exec_of_words {w : String} {ws : List String} (hwords : Text.words line = w :: ws)
    (hcolon : w.toList.head? = some ':') (read : Reader) : exec read line = command (w :: ws) := by
  unfold exec
  simp only
  rw [if_pos (startsWith_of_words hwords hcolon), Text.words_trim, hwords]

/-- A line that declares an input is answered as declaring it is. -/
theorem Replayable.exec_input (hs : s.Replayable) (read : Reader) {name shapeName : String}
    {shape : Shape} (hwords : Text.words line = [":input", name, shapeName])
    (hshape : Shape.ofName? shapeName = some shape) :
    if name ∈ s.block.scope.names then
      ∃ e, (exec read line).run s = .error (.error e) s ∧ e.isKind .duplicateBinding = true
    else (exec read line).run s =
      .ok (.text (shape.name ++ " " ++ name))
        ⟨s.inputs ++ [⟨name, shape⟩], s.steps, s.block.insertInput ⟨name, shape⟩⟩ := by
  have hname : name ≠ "" := by
    apply Text.ne_empty_of_mem_words
    rw [hwords]
    exact List.mem_cons_of_mem _ List.mem_cons_self
  have hexec : exec read line = Session.addInput name shapeName := exec_of_words hwords rfl read
  rw [hexec]
  exact hs.addInput hname hshape

end Session

end ShaderExpr
