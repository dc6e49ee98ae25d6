import ShaderExpr.Emitter
import ShaderExpr.Proofs.Block.Representation
import ShaderExpr.Proofs.Node

/-!
# What can be written

Writing a source has one way to go wrong: some tree in it has a missing part. Nothing on the way from a
tree to a program looks for missing parts; that is left to the define steps of blocks, which let complete
trees pass and no others. The two agree on every tree, so whatever was built from blocks can be written.

* **`Node.exists_text_iff`** — a tree has a text iff it is complete.
* **`Function.exists_text_iff`**, **`Stage.exists_text_iff`** — so it is with all that trees are part of.
* **`Emitter.exists_writeProgram`**, **`Emitter.exists_writeFunctions`** — what an emitter writes asks for
  nothing more than the checks of functions and programs besides.
* **`Block.Consistent.complete_function`**, **`Block.Consistent.complete_stage`** — what blocks give.
* **`Block.Reachable.renders`** — every block that can be built can be written in every form.
-/

namespace ShaderExpr

/-! ## Trees -/

namespace Node

theorem areComplete_iff {ns : List Node} :
    areComplete ns = true ↔ ∀ n ∈ ns, n.isComplete = true := by
  induction ns with
  | nil => simp [areComplete]
  | cons n ns ih => simp [areComplete, ih]

/-- Operands are written one by one, and the first that cannot be written ends it. -/
theorem inners_eq_mapM (ns : List Node) : inners ns = ns.mapM inner := by
  induction ns with
  | nil => rw [inners, List.mapM_nil]; rfl
  | cons n ns ih => rw [inners, List.mapM_cons, ih]

/-- A part of a tree has a text iff it is complete, by induction on the tree: what is written around the
texts of operands is always there. -/
theorem exists_inner_iff {n : Node} : (∃ s, n.inner = .ok s) ↔ n.isComplete = true := by
  induction n using Node.induction with
  | literal s => simp [inner, isComplete]
  | var s => simp [inner, isComplete]
  | call f args ih =>
      -- the arguments are written one by one, as they are looked at for missing parts
      rw [inner, isComplete, areComplete_iff, inners_eq_mapM, exists_bind_pure_eq_ok_iff,
        exists_mapM_eq_ok_iff]
      exact forall₂_congr ih
  | unary op x ih =>
      rw [inner, isComplete, exists_bind_pure_eq_ok_iff, ih]
  | binary op x y ihx ihy =>
      rw [inner, isComplete, Bool.and_eq_true, ← ihx, ← ihy, exists_bind_eq_ok_iff]
      simp only [exists_bind_pure_eq_ok_iff, exists_and_right]
  | missing => simp [inner, isComplete]

/-- **A tree has a text iff no part of it is missing.** -/
theorem exists_text_iff {n : Node} : (∃ s, n.text = .ok s) ↔ n.isComplete = true := by
  cases n with
  | missing => simp [text, isComplete]
  | _ => exact exists_inner_iff

end Node

/-! ## Declarations, functions and stages -/

namespace Statement

variable {sts : List Statement}

theorem exists_text_iff {st : Statement} : (∃ s, st.text = .ok s) ↔ st.value.isComplete = true := by
  unfold text
  rw [exists_bind_pure_eq_ok_iff, Node.exists_text_iff]

theorem exists_texts_iff {indent : String} :
    (∃ s, texts indent sts = .ok s) ↔ ∀ st ∈ sts, st.value.isComplete = true := by
  unfold texts
  rw [exists_bind_pure_eq_ok_iff, exists_mapM_eq_ok_iff]
  exact forall₂_congr fun _ _ => exists_text_iff

/-- A body is written iff all of its declarations can be. One without declarations is empty, and not
a line end. -/
theorem exists_bodyText_iff :
    (∃ s, bodyText sts = .ok s) ↔ ∀ st ∈ sts, st.value.isComplete = true := by
  unfold bodyText
  cases sts with
  | nil => simp
  | cons st sts =>
      rw [← @exists_texts_iff (st :: sts) "\t", List.isEmpty_cons, if_neg Bool.false_ne_true]
      cases texts "\t" (st :: sts) with
      | error f => exact ⟨nofun, nofun⟩
      | ok s => exact ⟨fun _ => ⟨s, rfl⟩, fun _ => ⟨_, rfl⟩⟩

end Statement

/-- No part of the body or of the result is missing. -/
structure Function.Complete (fn : Function) : Prop where
  body : ∀ st ∈ fn.body, st.value.isComplete = true
  result : fn.result.isComplete = true

/-- No part of the body or of an output is missing. -/
structure Stage.Complete (st : Stage) : Prop where
  body : ∀ s ∈ st.body, s.value.isComplete = true
  outputs : ∀ a ∈ st.outputs, a.value.isComplete = true

namespace Function

theorem exists_text_iff {fn : Function} : (∃ s, fn.text = .ok s) ↔ fn.Complete := by
  unfold text
  rw [exists_bind_eq_ok_iff]
  simp only [exists_bind_pure_eq_ok_iff, exists_and_right]
  rw [Statement.exists_bodyText_iff, Node.exists_text_iff]
  exact ⟨fun h => ⟨h.1, h.2⟩, fun h => ⟨h.body, h.result⟩⟩

end Function

theorem Assign.exists_text_iff {a : Assign} : (∃ s, a.text = .ok s) ↔ a.value.isComplete = true := by
  unfold text
  rw [exists_bind_pure_eq_ok_iff, Node.exists_text_iff]

theorem Stage.exists_text_iff {st : Stage} : (∃ s, st.text = .ok s) ↔ st.Complete := by
  unfold text
  rw [exists_bind_eq_ok_iff]
  simp only [exists_bind_pure_eq_ok_iff, exists_and_right, exists_mapM_eq_ok_iff, Assign.exists_text_iff]
  rw [Statement.exists_bodyText_iff]
  exact ⟨fun h => ⟨h.1, h.2⟩, fun h => ⟨h.body, h.outputs⟩⟩

/-! ## Programs -/

namespace Program

/-- No part of a tree in a function or in a stage is missing. -/
structure Complete (p : Program) : Prop where
  functions : ∀ fn ∈ p.functions, fn.Complete
  vertex : p.vertex.Complete
  fragment : p.fragment.Complete

variable {p : Program}

theorem exists_functionsText_iff {fns : List Function} :
    (∃ s, functionsText fns = .ok s) ↔ ∀ fn ∈ fns, fn.Complete := by
  unfold functionsText
  rw [exists_bind_pure_eq_ok_iff, exists_mapM_eq_ok_iff]
  exact forall₂_congr fun _ _ => Function.exists_text_iff

/-- The source of the vertex stage is there iff the functions and the stage are complete. The other
stage does not matter. -/
theorem exists_vertexText_iff :
    (∃ s, p.vertexText = .ok s) ↔ (∀ fn ∈ p.functions, fn.Complete) ∧ p.vertex.Complete := by
  unfold vertexText
  rw [exists_bind_eq_ok_iff]
  simp only [exists_bind_pure_eq_ok_iff, exists_and_right]
  rw [exists_functionsText_iff, Stage.exists_text_iff]

theorem exists_fragmentText_iff :
    (∃ s, p.fragmentText = .ok s) ↔ (∀ fn ∈ p.functions, fn.Complete) ∧ p.fragment.Complete := by
  unfold fragmentText
  rw [exists_bind_eq_ok_iff]
  simp only [exists_bind_pure_eq_ok_iff, exists_and_right]
  rw [exists_functionsText_iff, Stage.exists_text_iff]

end Program

/-! ## What an emitter writes -/

namespace Emitter

variable {fn : Function} {fns : List Function} {p : Program}

/-- Texts are gathered behind what the buffer holds. -/
theorem collect_ok (em : Emitter) (texts : List String) :
    em.collect (texts.map .ok) = (⟨em.buffer ++ String.join texts⟩, .ok ()) := by
  induction texts generalizing em with
  | nil => simp [collect]
  | cons s texts ih => simp [collect, ih, String.append_assoc]

/-- Texts are written at once, whatever the buffer holds. -/
theorem emit_ok (em : Emitter) (w : Writer) (texts : List String) :
    em.emit w (texts.map .ok) = (⟨String.join texts⟩, .written w (String.join texts)) := by
  simp [emit, collect_ok]

/-- A program whose stages have texts is written with them, each behind the line that names it. -/
theorem writeProgram_of_texts (em : Emitter) (w : Writer) {vertex fragment : String}
    (hcheck : p.check = .ok ()) (hvertex : p.vertexText = .ok vertex) (hfragment : p.fragmentText = .ok fragment) :
    (em.writeProgram w p).2 =
      .written w ("#shader vertex\n" ++ vertex ++ "\n#shader fragment\n" ++ fragment) := by
  have hemit := em.emit_ok w ["#shader vertex\n", vertex, "\n#shader fragment\n", fragment]
  simp only [writeProgram, hcheck, hvertex, hfragment]
  rw [show String.join _ = "#shader vertex\n" ++ vertex ++ "\n#shader fragment\n" ++ fragment by
    simp [String.append_assoc]] at hemit
  exact congrArg Prod.snd hemit

end Emitter

/-! ## What blocks give -/

namespace Block

namespace Consistent

variable {b : Block}

/-- Define steps have let no incomplete tree into the block. -/
theorem isComplete_of_mem_statements (hb : b.Consistent) {st : Statement} (hst : st ∈ b.statements) :
    st.value.isComplete = true := by
  obtain ⟨d, hd, rfl⟩ := List.mem_map.mp hst
  exact hb.complete d hd

theorem exists_text (hb : b.Consistent) (indent : String) : ∃ s, b.text indent = .ok s :=
  Statement.exists_texts_iff.mpr fun _ hst => hb.isComplete_of_mem_statements hst

/-- A function that is made from a block has its declarations, and returns a name. -/
theorem complete_function (hb : b.Consistent) {name : String} {fn : Function}
    (h : b.function name = .ok fn) : fn.Complete := by
  obtain ⟨t, _, rfl⟩ := hb.function_eq_ok h
  exact ⟨fun _ hst => hb.isComplete_of_mem_statements hst, rfl⟩

/-- The outputs of a stage are references to names in scope. -/
theorem complete_stage (hb : b.Consistent) {target : String} {outputs : List Output} {st : Stage}
    (h : b.stage target outputs = .ok st) : st.Complete := by
  obtain ⟨result, hresult, h⟩ := bind_eq_ok_iff.mp h
  obtain ⟨assigns, hassigns, h⟩ := bind_eq_ok_iff.mp h
  cases h
  refine ⟨fun _ hst => hb.isComplete_of_mem_statements hst, fun a ha => ?_⟩
  -- the result comes first, and then the outputs that were asked for
  rcases List.mem_cons.mp ha with rfl | ha
  · obtain ⟨d, _, _, rfl⟩ := hb.returns_eq_ok_iff.mp hresult
    rfl
  · obtain ⟨o, _, ho⟩ := exists_of_mapM_eq_ok hassigns ha
    unfold outputAssign at ho
    split at ho
    · cases ho
    · next e he =>
        cases ho
        obtain ⟨s, _, rfl⟩ := hb.get?_eq_some_iff.mp he
        rfl

end Consistent

/-- **Every block that can be built renders.** A tree has a text iff no part of it is missing. And after any
run of define steps, whatever expressions they bind, a block has a source and a text at every indent, and so
have the functions and the stages that are made of it. -/
theorem Reachable.renders (n : Node) {b : Block} (hb : b.Reachable) :
    ((∃ s, n.text = .ok s) ↔ n.isComplete = true) ∧
      (∃ s, b.source = .ok s) ∧ (∀ indent, ∃ s, b.text indent = .ok s) ∧
      (∀ name fn, b.function name = .ok fn → ∃ s, fn.text = .ok s) ∧
      (∀ target outputs st, b.stage target outputs = .ok st → ∃ s, st.text = .ok s) := by
  have hc := hb.consistent
  refine ⟨Node.exists_text_iff, hc.exists_text "", hc.exists_text, fun name fn hfn => ?_, ?_⟩
  · exact Function.exists_text_iff.mpr (hc.complete_function hfn)
  · intro target outputs st hst
    exact Stage.exists_text_iff.mpr (hc.complete_stage hst)

/-- A call whose operand was negated before it was given a tree. -/
def hollow : Expr := ⟨.float, .call "sin" [.unary "-" .missing]⟩

/-- A block of two inputs after a step that declares the result and a step that fails, since it binds
`hollow`. -/
def patchyRun : Block :=
  ((((empty.withInput "x" .float).withInput "uv" .vec2).define
    (some fun s => ⟨[⟨"x", .float⟩], [⟨"returns", s.get? "x"⟩], none⟩)).block.define
      (some fun _ => ⟨[], [⟨"y", some (.var "x" .float)⟩, ⟨"z", some hollow⟩], none⟩)).block

/-- A step with an incomplete tree is refused, and what was built before it is written. -/
theorem Reachable.renders_patchyRun :
    patchyRun.Reachable ∧ (¬ ∃ s, hollow.node.text = .ok s) ∧ (∃ s, patchyRun.source = .ok s) ∧
      (∃ fn s, patchyRun.function "first" = .ok fn ∧ fn.text = .ok s) ∧
      ∃ st s, patchyRun.stage "color" [⟨"place", "uv"⟩] = .ok st ∧ st.text = .ok s := by
  have hinputs : ((Block.empty.withInput "x" .float).withInput "uv" .vec2).Reachable :=
    @Reachable.ofRequests [⟨"x", Shape.float.code⟩, ⟨"uv", Shape.vec2.code⟩] _ rfl
  have hrun : patchyRun.Reachable := .define (.define hinputs _) _
  obtain ⟨htext, hsource, _, hfunction, hstage⟩ := hrun.renders hollow.node
  refine ⟨hrun, ?_, hsource, ?_, ?_⟩
  · rw [htext]
    decide
  · obtain ⟨s, hs⟩ := hfunction "first" _ rfl
    exact ⟨_, s, rfl, hs⟩
  · obtain ⟨s, hs⟩ := hstage "color" [⟨"place", "uv"⟩] _ rfl
    exact ⟨_, s, rfl, hs⟩

end Block

end ShaderExpr
