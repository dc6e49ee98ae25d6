import ShaderExpr.Session
import ShaderExpr.Proofs.Description.Rendering

/-!
# A session and its recipe

A session keeps its block twice: as a value, and as the inputs and define steps from which it can be
built again. A define step extends the value and notes the step; a new input builds the value again from
the recipe. The two are changed one after the other, and a line may fail in between. This module shows that
they never come apart, whatever lines are given in whatever order and however lines are read, and that a
line which is refused changes neither.

* **`exec_eq_ok`**, **`exec_eq_error`** — all that a line can do to a session, and all the ways in which it
  can fail.
* **`Replayable`** — the invariant: the recipe gives the block.
* **`Replayable.exec_error`** — a line that fails leaves the session as it was.
* **`run_replays`** — the invariant holds after every list of lines.
-/

namespace ShaderExpr

namespace Block

variable {b b' : Block} {anchors : Yaml.Anchors} {functions : Table Function} {step : Yaml.Node}

/-- A block without a table and the one that was given a table are extended to the same block. -/
theorem defineStep_opened (h : b.defineStep anchors functions step = .ok b') :
    b.opened.defineStep anchors functions step = .ok b' := by
  obtain ⟨line, content, bindings, rfl, hread, hadd⟩ := defineStep_eq_ok_iff.mp h
  have hextends : b.opened.scope.Extends b.scope := by
    intro name e hget
    exact (b.scope.get?_opened name).trans hget
  refine defineStep_eq_ok_iff.mpr ⟨line, content, bindings, rfl, ?_, hadd⟩
  exact Vocabulary.readBindings_extend hextends hread

end Block

namespace Session

variable {α : Type} {read : Reader} {s s' : Session} {line : String} {reply : Reply} {f : Failure}

/-! ## What a line does -/

/-- What does not touch the session leaves it as it is when it succeeds. -/
theorem run_lift_eq_ok_iff {x : Outcome α} {a : α} :
    (lift x).run s = .ok a s' ↔ x = .ok a ∧ s = s' := by
  cases x with
  | ok b => rw [show (lift (.ok b)).run s = .ok b s from rfl, EStateM.Result.ok.injEq, Except.ok.injEq]
  | error e =>
      constructor
      · intro h
        cases h
      · rintro ⟨h, _⟩
        cases h

/-- And it leaves it as it is when it fails. -/
theorem run_lift_eq_error_iff {x : Outcome α} :
    (lift x).run s = .error f s' ↔ x = .error f ∧ s = s' := by
  cases x with
  | ok b =>
      constructor
      · intro h
        cases h
      · rintro ⟨h, _⟩
        cases h
  | error e =>
      rw [show (lift (.error e : Outcome α)).run s = .error e s from rfl, EStateM.Result.error.injEq,
        Except.error.injEq]

/-- A define step that was taken extends the block by a step that was read, notes it, and prints what it
added. -/
theorem define_eq_ok (h : (define read line).run s = .ok reply s') :
    ∃ step b text, readStep read line = .ok step ∧ s.block.defineSessionStep step = .ok b ∧
      Statement.texts "" (b.statements.drop s.block.size) = .ok text ∧ reply = .text text ∧
      s' = ⟨s.inputs, s.steps ++ [step], b⟩ := by
  unfold define at h
  obtain ⟨step, _, hlift, h⟩ := run_bind_eq_ok_iff.mp h
  obtain ⟨hread, rfl⟩ := run_lift_eq_ok_iff.mp hlift
  obtain ⟨_, _, hget, h⟩ := run_bind_eq_ok_iff.mp h
  cases hget
  obtain ⟨b, _, hlift, h⟩ := run_bind_eq_ok_iff.mp h
  obtain ⟨hb, rfl⟩ := run_lift_eq_ok_iff.mp hlift
  obtain ⟨_, _, hblock, h⟩ := run_bind_eq_ok_iff.mp h
  cases hblock
  obtain ⟨_, _, hsteps, h⟩ := run_bind_eq_ok_iff.mp h
  cases hsteps
  obtain ⟨text, _, hlift, h⟩ := run_bind_eq_ok_iff.mp h
  obtain ⟨htext, rfl⟩ := run_lift_eq_ok_iff.mp hlift
  cases h
  exact ⟨step, b, text, mapError_eq_ok_iff.mp hread, hb, mapError_eq_ok_iff.mp htext, rfl, rfl⟩

/-- The declarations that a step adds can be written, so that a step which fails has failed before it
changed anything. -/
theorem define_eq_error (hs : s.block.Consistent) (h : (define read line).run s = .error f s') :
    s' = s ∧ ((∃ e, f = .error e) ∨
      ∃ step, readStep read line = .ok step ∧ s.block.defineSessionStep step = .error f) := by
  unfold define at h
  rcases run_bind_eq_error_iff.mp h with hlift | ⟨step, _, hlift, h⟩
  · obtain ⟨hread, rfl⟩ := run_lift_eq_error_iff.mp hlift
    refine ⟨rfl, .inl ?_⟩
    cases hstep : readStep read line with
    | error e =>
        rw [hstep] at hread
        cases hread
        exact ⟨e, rfl⟩
    | ok step =>
        rw [hstep] at hread
        cases hread
  obtain ⟨hread, rfl⟩ := run_lift_eq_ok_iff.mp hlift
  rcases run_bind_eq_error_iff.mp h with hget | ⟨_, _, hget, h⟩
  · cases hget
  cases hget
  rcases run_bind_eq_error_iff.mp h with hlift | ⟨b, _, hlift, h⟩
  · obtain ⟨hb, rfl⟩ := run_lift_eq_error_iff.mp hlift
    exact ⟨rfl, .inr ⟨step, mapError_eq_ok_iff.mp hread, hb⟩⟩
  obtain ⟨hb, rfl⟩ := run_lift_eq_ok_iff.mp hlift
  rcases run_bind_eq_error_iff.mp h with hblock | ⟨_, _, hblock, h⟩
  · cases hblock
  cases hblock
  rcases run_bind_eq_error_iff.mp h with hsteps | ⟨_, _, hsteps, h⟩
  · cases hsteps
  cases hsteps
  -- block and step are in the session by now, but all that is left to do is to write what was added
  obtain ⟨text, htext⟩ : ∃ text, Statement.texts "" (b.statements.drop s.block.size) = .ok text :=
    Statement.exists_texts_iff.mpr fun st hst =>
      (hs.defineStep hb).isComplete_of_mem_statements (List.mem_of_mem_drop hst)
  rw [htext] at h
  cases h

/-- An input that was taken extends the inputs, and the block is built again. -/
theorem addInput_eq_ok {name shapeName : String} (h : (addInput name shapeName).run s = .ok reply s') :
    ∃ input b text, replay (s.inputs ++ [input]) s.steps = .ok b ∧ reply = .text text ∧
      s' = ⟨s.inputs ++ [input], s.steps, b⟩ := by
  unfold addInput at h
  split at h
  · cases h
  · next shape _ =>
      obtain ⟨_, _, hget, h⟩ := run_bind_eq_ok_iff.mp h
      cases hget
      obtain ⟨b, _, hlift, h⟩ := run_bind_eq_ok_iff.mp h
      obtain ⟨hb, rfl⟩ := run_lift_eq_ok_iff.mp hlift
      cases h
      exact ⟨⟨name, shape⟩, b, _, hb, rfl, rfl⟩

/-- An input that is refused is refused before the session is changed, for its shape or because the
block cannot be built again. -/
theorem addInput_eq_error {name shapeName : String} (h : (addInput name shapeName).run s = .error f s') :
    s' = s ∧ ((∃ e, f = .error e) ∨ ∃ input, replay (s.inputs ++ [input]) s.steps = .error f) := by
  unfold addInput at h
  split at h
  · cases h
    exact ⟨rfl, .inl ⟨_, rfl⟩⟩
  · next shape _ =>
      rcases run_bind_eq_error_iff.mp h with hget | ⟨_, _, hget, h⟩
      · cases hget
      cases hget
      rcases run_bind_eq_error_iff.mp h with hlift | ⟨b, _, hlift, h⟩
      · obtain ⟨hb, rfl⟩ := run_lift_eq_error_iff.mp hlift
        exact ⟨rfl, .inr ⟨_, hb⟩⟩
      · obtain ⟨_, rfl⟩ := run_lift_eq_ok_iff.mp hlift
        cases h

/-- What only shows the block leaves the session as it is. -/
theorem present_eq_ok {text : Block → Outcome String} (h : (present text).run s = .ok reply s') :
    s' = s ∧ ∃ t, text s.block = .ok t ∧ reply = .text t := by
  unfold present at h
  obtain ⟨_, _, hget, h⟩ := run_bind_eq_ok_iff.mp h
  cases hget
  obtain ⟨t, _, hlift, h⟩ := run_bind_eq_ok_iff.mp h
  obtain ⟨ht, rfl⟩ := run_lift_eq_ok_iff.mp hlift
  cases h
  exact ⟨rfl, t, ht, rfl⟩

/-- It fails if there is nothing to show, and then too the session is as it was. -/
theorem present_eq_error {text : Block → Outcome String} (h : (present text).run s = .error f s') :
    s' = s ∧ text s.block = .error f := by
  unfold present at h
  rcases run_bind_eq_error_iff.mp h with hget | ⟨_, _, hget, h⟩
  · cases hget
  cases hget
  rcases run_bind_eq_error_iff.mp h with hlift | ⟨t, _, hlift, h⟩
  · obtain ⟨ht, rfl⟩ := run_lift_eq_error_iff.mp hlift
    exact ⟨rfl, ht⟩
  · obtain ⟨_, rfl⟩ := run_lift_eq_ok_iff.mp hlift
    cases h

/-- The result of a block is a reference, which has a text. -/
theorem returnText_faultless {b : Block} (hb : b.Consistent) : Outcome.Faultless (returnText b) := by
  unfold returnText
  cases hreturns : b.returns with
  | error e => exact Outcome.faultless_error e
  | ok e =>
      obtain ⟨_, _, _, rfl⟩ := hb.returns_eq_ok_iff.mp hreturns
      exact Outcome.faultless_ok _

/-- Every name in scope is found. -/
theorem exists_scopeText {b : Block} (hb : b.Consistent) : ∃ text, scopeText b = .ok text := by
  unfold scopeText
  rw [exists_bind_pure_eq_ok_iff, exists_mapM_eq_ok_iff]
  intro name hname
  obtain ⟨e, he⟩ := hb.agrees.mem_names_iff.mp hname
  unfold scopeLine
  rw [he]
  exact ⟨_, rfl⟩

/-- **What a line can do.** A line that is not refused leaves the session as it is, or it is not the line
that quits and it starts over, takes a define step or takes an input. -/
theorem exec_eq_ok (h : (exec read line).run s = .ok reply s') :
    s' = s ∨ reply ≠ .quit ∧
      (s' = empty ∨
        (∃ step b, readStep read (Text.trim line) = .ok step ∧ s.block.defineSessionStep step = .ok b ∧
          s' = ⟨s.inputs, s.steps ++ [step], b⟩) ∨
        ∃ input b, replay (s.inputs ++ [input]) s.steps = .ok b ∧
          s' = ⟨s.inputs ++ [input], s.steps, b⟩) := by
  unfold exec at h
  simp only at h
  split at h
  · unfold command at h
    split at h
    -- quitting, in both spellings, and help
    · cases h; exact .inl rfl
    · cases h; exact .inl rfl
    · cases h; exact .inl rfl
    · obtain ⟨input, b, text, hreplay, rfl, rfl⟩ := addInput_eq_ok h
      exact .inr ⟨Reply.noConfusion, .inr (.inr ⟨input, b, hreplay, rfl⟩)⟩
    · cases h
    -- the commands that only show something
    · exact .inl (present_eq_ok h).1
    · exact .inl (present_eq_ok h).1
    · exact .inl (present_eq_ok h).1
    · cases h; exact .inr ⟨Reply.noConfusion, .inl rfl⟩
    · cases h
  · obtain ⟨step, b, text, hread, hstep, _, rfl, rfl⟩ := define_eq_ok h
    exact .inr ⟨Reply.noConfusion, .inr (.inl ⟨step, b, hread, hstep, rfl⟩)⟩

/-- **How a line can fail.** It leaves the session as it was, and it is at fault only if reading its define
step or building the block again is. -/
theorem exec_eq_error (hs : s.block.Consistent) (h : (exec read line).run s = .error f s') :
    s' = s ∧ ((∃ e, f = .error e) ∨
      (∃ step, readStep read (Text.trim line) = .ok step ∧ s.block.defineSessionStep step = .error f) ∨
      ∃ input, replay (s.inputs ++ [input]) s.steps = .error f) := by
  unfold exec at h
  simp only at h
  split at h
  · unfold command at h
    split at h
    · cases h
    · cases h
    · cases h
    · exact (addInput_eq_error h).imp_right (·.imp_right .inr)
    · cases h
      exact ⟨rfl, .inl ⟨_, rfl⟩⟩
    · obtain ⟨_, hsource⟩ := present_eq_error h
      obtain ⟨text, htext⟩ : ∃ text, s.block.source = .ok text := hs.exists_text ""
      rw [htext] at hsource
      cases hsource
    · obtain ⟨rfl, hreturns⟩ := present_eq_error h
      cases f with
      | error e => exact ⟨rfl, .inl ⟨e, rfl⟩⟩
      | fault f => exact absurd hreturns (returnText_faultless hs f)
    · obtain ⟨_, hscope⟩ := present_eq_error h
      obtain ⟨text, htext⟩ := exists_scopeText hs
      rw [htext] at hscope
      cases hscope
    · cases h
    · cases h
      exact ⟨rfl, .inl ⟨_, rfl⟩⟩
  · exact (define_eq_error hs h).imp_right (·.imp_right .inl)

/-! ## The recipe gives the block -/

/-- The inputs and define steps of the session give its block. A session that has done nothing yet has the
empty block, while a block that is built has a table in any case. -/
def Replayable (s : Session) : Prop := replay s.inputs s.steps = .ok s.block.opened

theorem replayable_empty : empty.Replayable := rfl

/-- Building again is to take the inputs and then the steps, one after the other. -/
theorem replay_eq_ok_iff {inputs : List Input} {steps : List SessionStep} {b : Block} :
    replay inputs steps = .ok b ↔
      ∃ b₀, Block.ofInputs inputs = .ok ⟨b₀, none⟩ ∧ steps.foldlM Block.defineSessionStep b₀ = .ok b := by
  unfold replay
  rw [bind_eq_ok_iff]
  simp only [Block.Attempt.outcome_eq_ok_iff, Outcome.inside_eq_ok_iff]

theorem consistent_of_replay {inputs : List Input} {steps : List SessionStep} {b : Block}
    (h : replay inputs steps = .ok b) : b.Consistent := by
  obtain ⟨b₀, hinputs, hsteps⟩ := replay_eq_ok_iff.mp h
  exact foldlM_induction (fun _ _ _ _ hb hstep => hb.defineStep hstep)
    (Block.consistent_of_ofRequests hinputs).1 hsteps

/-- What is built from inputs and define steps has a table. -/
theorem opened_of_replay {inputs : List Input} {steps : List SessionStep} {b : Block}
    (h : replay inputs steps = .ok b) : b.opened = b := by
  obtain ⟨b₀, hinputs, hsteps⟩ := replay_eq_ok_iff.mp h
  refine foldlM_induction (P := fun b => b.opened = b)
    (fun _ _ _ _ _ hstep => Block.opened_of_defineStep hstep) ?_ hsteps
  refine foldlM_induction (P := fun b => b.opened = b) ?_ rfl (Block.foldlM_of_ofRequests hinputs)
  intro b r b' _ _ hadd
  obtain ⟨_, _, _, _, rfl⟩ := Block.addInput_eq_ok_iff.mp hadd
  rfl

/-- Noting a step and extending the block by it is what replaying does with the last step. -/
theorem replay_append_singleton {inputs : List Input} {steps : List SessionStep}
    {step : SessionStep} {b b' : Block} (hb : replay inputs steps = .ok b)
    (hstep : b.defineSessionStep step = .ok b') : replay inputs (steps ++ [step]) = .ok b' := by
  obtain ⟨b₀, hinputs, hsteps⟩ := replay_eq_ok_iff.mp hb
  refine replay_eq_ok_iff.mpr ⟨b₀, hinputs, ?_⟩
  -- replaying up to the last step gives the block that the session had
  rw [List.foldlM_append]
  refine bind_eq_ok_iff.mpr ⟨b, hsteps, ?_⟩
  rw [List.foldlM_cons]
  exact bind_eq_ok_iff.mpr ⟨b', hstep, rfl⟩

namespace Replayable

/-- The block of a session is consistent. Whether it has a table makes no difference to that. -/
theorem consistent (hs : s.Replayable) : s.block.Consistent :=
  have hopened := consistent_of_replay hs
  ⟨hopened.agrees, hopened.entries_eq, hopened.nodup, hopened.named, hopened.complete⟩

/-- **Every line that succeeds keeps the invariant.** -/
theorem exec_ok (hs : s.Replayable) (h : (exec read line).run s = .ok reply s') : s'.Replayable := by
  -- nothing, a fresh start, a define step, or an input, after which the recipe was run anyway
  rcases exec_eq_ok h with rfl | ⟨_, rfl | ⟨step, b, _, hstep, rfl⟩ | ⟨input, b, hreplay, rfl⟩⟩
  · exact hs
  · exact replayable_empty
  · unfold Replayable
    rw [Block.opened_of_defineStep hstep]
    exact replay_append_singleton hs (Block.defineStep_opened hstep)
  · unfold Replayable
    rw [opened_of_replay hreplay]
    exact hreplay

theorem exec_error (hs : s.Replayable) (h : (exec read line).run s = .error f s') : s' = s :=
  (exec_eq_error hs.consistent h).1

end Replayable

/-! ## Every list of lines -/

/-- The session that a line leaves, whether or not the line fails. -/
def after (read : Reader) (s : Session) (line : String) : Session :=
  match (exec read line).run s with
  | .ok _ s' => s'
  | .error _ s' => s'

/-- The session after lines from its start. -/
def run (read : Reader) (lines : List String) : Session := lines.foldl (after read) empty

theorem after_of_ok (h : (exec read line).run s = .ok reply s') : after read s line = s' := by
  unfold after
  rw [h]

theorem after_of_error (h : (exec read line).run s = .error f s') : after read s line = s' := by
  unfold after
  rw [h]

theorem Replayable.after (hs : s.Replayable) (read : Reader) (line : String) :
    (after read s line).Replayable := by
  cases hexec : (exec read line).run s with
  | ok reply s' =>
      rw [after_of_ok hexec]
      exact hs.exec_ok hexec
  | error f s' =>
      rw [after_of_error hexec, hs.exec_error hexec]
      exact hs

theorem run_append_singleton (read : Reader) (lines : List String) (line : String) :
    run read (lines ++ [line]) = after read (run read lines) line := by
  unfold run
  rw [List.foldl_append]
  rfl

/-- What holds at the start and is kept by every line holds after all lines. -/
theorem run_induction {P : Session → Prop} (hstart : P empty)
    (hstep : ∀ s line, P s → P (after read s line)) (lines : List String) : P (run read lines) := by
  unfold run
  -- induction on the lines, from any session
  generalize empty = s at hstart ⊢
  induction lines generalizing s with
  | nil => exact hstart
  | cons line lines ih => exact ih _ (hstep s line hstart)

theorem replayable_run (read : Reader) (lines : List String) : (run read lines).Replayable :=
  run_induction replayable_empty (fun _ line hs => hs.after read line) lines

/-! ## Lines without alias cycles -/

/-- The nodes that lines are read as are nodes as documents have them. -/
def Reader.Regular (read : Reader) : Prop :=
  ∀ text d, read text = .ok (some d) → d.anchors.Regular d.root

/-- So are the nodes of the define steps that a session has noted. -/
def Noted (s : Session) : Prop := ∀ step ∈ s.steps, step.anchors.Regular step.node

/-- A define step is the node that its line is read as. -/
theorem regular_of_readStep (hread : read.Regular) {step : SessionStep}
    (h : readStep read line = .ok step) : step.anchors.Regular step.node := by
  obtain ⟨d?, hd, h⟩ := bind_eq_ok_iff.mp h
  cases d? with
  | none => cases h
  | some d =>
      cases h
      exact hread line d hd

/-- Building a block again from steps that were noted is not at fault. Taking inputs never is, and
each of the steps is read without following an alias in a circle. -/
theorem replay_faultless {steps : List SessionStep}
    (h : ∀ step ∈ steps, step.anchors.Regular step.node) (inputs : List Input) :
    Outcome.Faultless (replay inputs steps) :=
  (Block.faultless_ofRequests _).bind fun b =>
    (Outcome.Faultless.foldlM (fun step hstep b => b.defineStep_faultless (h step hstep) .empty) b).inside _

/-- A line notes at most the step that it was read as. -/
theorem Noted.after (hread : read.Regular) (hs : s.Replayable ∧ s.Noted) (line : String) :
    (after read s line).Noted := by
  cases hexec : (exec read line).run s with
  | error f s' =>
      rw [after_of_error hexec, hs.1.exec_error hexec]
      exact hs.2
  | ok reply s' =>
      rw [after_of_ok hexec]
      rcases exec_eq_ok hexec with rfl | ⟨_, rfl | ⟨step, b, hstep, _, rfl⟩ | ⟨input, b, _, rfl⟩⟩
      · exact hs.2
      · exact List.forall_mem_nil _
      · exact List.forall_mem_append.mpr
          ⟨hs.2, List.forall_mem_singleton.mpr (regular_of_readStep hread hstep)⟩
      · exact hs.2

theorem noted_run (hread : read.Regular) (lines : List String) : (run read lines).Noted :=
  (run_induction (P := fun s => s.Replayable ∧ s.Noted) ⟨replayable_empty, List.forall_mem_nil _⟩
    (fun _ line hs => ⟨hs.1.after read line, Noted.after hread hs line⟩) lines).2

/-- A line is not at fault, if neither it nor the lines before it hold an alias that leads back to
itself. -/
theorem Replayable.exec_faultless (hs : s.Replayable) (hnoted : s.Noted) (hread : read.Regular)
    (line : String) (fault : Fault) (s' : Session) : (exec read line).run s ≠ .error (.fault fault) s' := by
  intro h
  rcases (exec_eq_error hs.consistent h).2 with ⟨e, he⟩ | ⟨step, hstep, hfault⟩ | ⟨input, hfault⟩
  · cases he
  · exact s.block.defineStep_faultless (regular_of_readStep hread hstep) .empty fault hfault
  · exact replay_faultless hnoted _ fault hfault

/-- **The recipe of a session always gives its block**, whatever lines it was given and however they were
read: building the block again from inputs and steps succeeds, and gives the same inputs, the same names in
scope, in the same order and bound to the same, and the same declarations. A further line that fails, or
that asks to quit, leaves inputs, steps and block exactly as they were. And if no node that lines are read
as has an alias that leads back to itself, a line is answered or fails with an error, and is never at
fault. -/
theorem run_replays (read : Reader) (lines : List String) :
    (∃ b, replay (run read lines).inputs (run read lines).steps = .ok b ∧
      b.inputs = (run read lines).block.inputs ∧
      b.scope.names = (run read lines).block.scope.names ∧
      (∀ name, b.scope.get? name = (run read lines).block.scope.get? name) ∧
      b.declarations = (run read lines).block.declarations) ∧
    (∀ line s', (∃ f, (exec read line).run (run read lines) = .error f s') ∨
      (exec read line).run (run read lines) = .ok .quit s' → s' = run read lines) ∧
    (read.Regular → ∀ line fault s', (exec read line).run (run read lines) ≠ .error (.fault fault) s') := by
  have hs := replayable_run read lines
  refine ⟨⟨_, hs, rfl, rfl, Scope.get?_opened _, rfl⟩, ?_, ?_⟩
  · rintro line s' (⟨f, hfails⟩ | hquits)
    · exact hs.exec_error hfails
    · rcases exec_eq_ok hquits with hsame | ⟨hquit, _⟩
      · exact hsame
      · exact absurd rfl hquit
  · exact fun hread line fault s' => hs.exec_faultless (noted_run hread lines) hread line fault s'

/-- Reads every line as `{k: 2}`. -/
def onlyStep : Reader := fun _ => .ok (some ⟨.mapping 1 [.word "k", .scalar 1 .int "2"], #[]⟩)

/-- An input before a define step, an input after it, and the step once more, which is refused. -/
def onlyLines : List String := [":input v vec3", "step", ":input w vec2", "step"]

/-- The step that comes again is refused, and the input between them comes before what was
declared. -/
theorem run_replays_onlyLines :
    onlyStep.Regular ∧ (run onlyStep onlyLines).steps.length = 1 ∧
      (∃ b, replay (run onlyStep onlyLines).inputs (run onlyStep onlyLines).steps = .ok b ∧
        b.scope.names = ["v", "w", "k"]) ∧
      ∀ fault s', (exec onlyStep "step").run (run onlyStep onlyLines) ≠ .error (.fault fault) s' := by
  have hregular : onlyStep.Regular := by
    intro text d hd
    cases hd
    have haliases : (Yaml.Node.mapping 1 [.word "k", .scalar 1 .int "2"]).aliases = [] := rfl
    exact ⟨by decide, ⟨by simp [haliases], by simp⟩, by simp [Yaml.Anchors.Acyclic, haliases]⟩
  obtain ⟨hsteps, hnames⟩ : (run onlyStep onlyLines).steps.length = 1 ∧
      (run onlyStep onlyLines).block.scope.names = ["v", "w", "k"] := by decide +kernel
  obtain ⟨⟨b, hb, _, hscope, _⟩, _, hfaultless⟩ := run_replays onlyStep onlyLines
  exact ⟨hregular, hsteps, ⟨b, hb, hscope.trans hnames⟩, hfaultless hregular "step"⟩

end Session

end ShaderExpr
