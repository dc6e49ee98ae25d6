import Mathlib.Data.List.Nodup
import ShaderExpr.Preview
import ShaderExpr.Proofs.Block.Extension
import ShaderExpr.Proofs.Description.Assembly

/-!
# Which variables the outputs of a stage go to

The source of a stage declares global variables, and then its main function declares variables of its own
and assigns to outputs. A declaration in the main function hides a global of the same name, so that an
assignment that is meant for an output goes to the declaration. No name clashes among the inputs and the
declarations of one block, but the globals of a stage are more than the inputs of its block: a vertex
stage has the varyings besides, and a fragment stage has its color output.

* **`Stage.resolve?`** — the variable that a name stands for in a main function.
* **`Program.Hygienic`** — in neither stage do two globals, or a global and a declaration, share a name.
* **`Block.Fills`** — a stage made from a block whose inputs are among the globals.
* **`Block.Fills.hygienic_append_iff`** — what the other globals may not be called.
* **`Program.stages_hygienic_iff`** — which programs of descriptions and which previews are hygienic.
-/

namespace ShaderExpr

/-! ## Names in a stage -/

/-- A variable that the main function of a stage can assign to. -/
inductive Variable where
  | declared (st : Statement)
  | global (g : Param)

def Variable.isGlobal : Variable → Bool
  | .declared _ => false
  | .global _ => true

namespace Stage

/-- The variable that a name stands for after the declarations of the main function, over the globals. -/
def resolve? (st : Stage) (globals : List Param) (name : String) : Option Variable :=
  match st.body.find? (·.name == name) with
  | some s => some (.declared s)
  | none => (globals.find? (·.name == name)).map .global

/-- No two globals share a name, and no declaration has the name of a global. -/
structure Hygienic (st : Stage) (globals : List Param) : Prop where
  distinct : (globals.map Param.name).Nodup
  unshadowed : ∀ s ∈ st.body, s.name ∉ globals.map Param.name

instance (st : Stage) (globals : List Param) : Decidable (st.Hygienic globals) :=
  decidable_of_iff
    ((globals.map Param.name).Nodup ∧ ∀ s ∈ st.body, s.name ∉ globals.map Param.name)
    ⟨fun h => ⟨h.1, h.2⟩, fun h => ⟨h.distinct, h.unshadowed⟩⟩

variable {st : Stage} {globals globals' : List Param}

/-- The order in which globals are declared does not matter. -/
theorem hygienic_perm_iff (h : globals.Perm globals') : st.Hygienic globals ↔ st.Hygienic globals' := by
  have hnames := h.map Param.name
  constructor
  · intro hst
    exact ⟨hnames.nodup_iff.mp hst.distinct, fun s hs => mt hnames.mem_iff.mpr (hst.unshadowed s hs)⟩
  · intro hst
    exact ⟨hnames.nodup_iff.mpr hst.distinct, fun s hs => mt hnames.mem_iff.mp (hst.unshadowed s hs)⟩

theorem Hygienic.sublist (h : st.Hygienic globals) (hsub : globals'.Sublist globals) :
    st.Hygienic globals' where
  distinct := h.distinct.sublist (hsub.map Param.name)
  unshadowed := fun s hs hmem => h.unshadowed s hs ((hsub.map Param.name).subset hmem)

/-- In a hygienic stage the name of a global stands for that global. -/
theorem Hygienic.resolve?_eq (h : st.Hygienic globals) {g : Param} (hg : g ∈ globals) :
    st.resolve? globals g.name = some (.global g) := by
  -- no declaration hides it, and no other global comes before it
  have hbody : st.body.find? (·.name == g.name) = none := by
    rw [List.find?_eq_none]
    intro s hs hname
    exact h.unshadowed s hs (beq_iff_eq.mp hname ▸ List.mem_map_of_mem hg)
  have hglobal : globals.find? (·.name == g.name) = some g := find?_eq_some_of_nodup h.distinct hg
  unfold resolve?
  rw [hbody, hglobal]
  rfl

/-- An assignment to the name of a global writes that global. -/
def WritesGlobals (st : Stage) (globals : List Param) : Prop :=
  ∀ a ∈ st.outputs, ∀ g ∈ globals, a.target = g.name → st.resolve? globals a.target = some (.global g)

theorem Hygienic.writesGlobals (h : st.Hygienic globals) : st.WritesGlobals globals := by
  intro a _ g hg htarget
  rw [htarget]
  exact h.resolve?_eq hg

end Stage

namespace Program

/-- The variables that the source of the vertex stage declares before its functions. -/
def vertexGlobals (p : Program) : List Param := p.uniforms ++ p.attributes ++ p.varyings

/-- The variables that the source of the fragment stage declares before its functions. -/
def fragmentGlobals (p : Program) : List Param := p.uniforms ++ p.varyings ++ [p.fragmentOut]

/-- In neither stage do two globals, or a global and a declaration, share a name. -/
def Hygienic (p : Program) : Prop :=
  p.vertex.Hygienic p.vertexGlobals ∧ p.fragment.Hygienic p.fragmentGlobals

instance (p : Program) : Decidable p.Hygienic := inferInstanceAs (Decidable (_ ∧ _))

end Program

/-! ## Stages of blocks -/

namespace Block

/-- The stage has the declarations of the block, and the inputs of the block are these globals. -/
structure Fills (b : Block) (globals : List Param) (st : Stage) : Prop where
  consistent : b.Consistent
  inputs_eq : b.inputs.map Input.param = globals
  body_eq : st.body = b.statements

/-- A stage has the declarations of its block, whatever it assigns to. -/
theorem body_of_stage {b : Block} {target : String} {outputs : List Output} {st : Stage}
    (h : b.stage target outputs = .ok st) : st.body = b.statements := by
  obtain ⟨_, _, h⟩ := bind_eq_ok_iff.mp h
  obtain ⟨_, _, h⟩ := bind_eq_ok_iff.mp h
  cases h
  rfl

namespace Fills

variable {b : Block} {globals more : List Param} {st : Stage}

/-- The names in scope in the block are those of the globals it knows and those of the
declarations. -/
theorem names_eq (h : b.Fills globals st) :
    b.scope.names = globals.map Param.name ++ st.body.map Statement.name := by
  rw [h.consistent.names_eq, ← h.inputs_eq, h.body_eq, statements, List.map_map, List.map_map]
  rfl

/-- With more globals than the inputs of its block a stage is hygienic iff those have distinct names
that are not in scope in the block. Names in scope never clash with each other, so only the other
globals are left to look at. -/
theorem hygienic_append_iff (h : b.Fills globals st) :
    st.Hygienic (globals ++ more) ↔
      (more.map Param.name).Nodup ∧ ∀ g ∈ more, g.name ∉ b.scope.names := by
  have hnodup := h.consistent.nodup
  rw [h.names_eq, List.nodup_append] at hnodup
  obtain ⟨hglobals, _, hapart⟩ := hnodup
  rw [h.names_eq]
  constructor
  · rintro ⟨hdistinct, hunshadowed⟩
    rw [List.map_append, List.nodup_append] at hdistinct
    refine ⟨hdistinct.2.1, fun g hg hmem => ?_⟩
    have hg : g.name ∈ more.map Param.name := List.mem_map_of_mem hg
    -- a name in scope is that of a global or of a declaration, and clashes accordingly
    rcases List.mem_append.mp hmem with hinput | hlocal
    · exact hdistinct.2.2 _ hinput _ hg rfl
    · obtain ⟨s, hs, hname⟩ := List.mem_map.mp hlocal
      apply hunshadowed s hs
      rw [hname, List.map_append]
      exact List.mem_append_right _ hg
  · rintro ⟨hmore, hfresh⟩
    constructor
    · rw [List.map_append, List.nodup_append]
      refine ⟨hglobals, hmore, ?_⟩
      rintro x hx y hy rfl
      obtain ⟨g, hg, rfl⟩ := List.mem_map.mp hy
      exact hfresh g hg (List.mem_append_left _ hx)
    · intro s hs hmem
      have hs : s.name ∈ st.body.map Statement.name := List.mem_map_of_mem hs
      rw [List.map_append] at hmem
      rcases List.mem_append.mp hmem with hinput | hg
      · exact hapart _ hinput _ hs rfl
      · obtain ⟨g, hg, hname⟩ := List.mem_map.mp hg
        exact hfresh g hg (hname ▸ List.mem_append_right _ hs)

/-- The inputs of a block and its declarations never clash. -/
theorem hygienic (h : b.Fills globals st) : st.Hygienic globals := by
  have hst : st.Hygienic (globals ++ []) := h.hygienic_append_iff.mpr ⟨List.nodup_nil, by simp⟩
  rwa [List.append_nil] at hst

end Fills

/-! ## Programs of descriptions -/

/-- Inputs are added at the end, as they are. Induction on the requests. -/
theorem inputs_of_foldlM_addInput {inputs : List Input} {b b' : Block}
    (h : (inputs.map Input.request).foldlM addInput b = .ok b') : b'.inputs = b.inputs ++ inputs := by
  induction inputs generalizing b with
  | nil =>
      rw [List.map_nil, List.foldlM_nil] at h
      cases h
      exact (List.append_nil _).symm
  | cons i inputs ih =>
      rw [List.map_cons, List.foldlM_cons] at h
      obtain ⟨b₁, h₁, h₂⟩ := bind_eq_ok_iff.mp h
      obtain ⟨_, _, s, hs, rfl⟩ := addInput_eq_ok_iff.mp h₁
      -- a request carries the number of a shape, from which the same shape comes back
      obtain rfl : i.shape = s := Option.some.inj ((Shape.shape?_code i.shape).symm.trans hs)
      rw [ih h₂]
      exact List.append_assoc _ [i] inputs

end Block

namespace Description

variable {anchors : Yaml.Anchors} {fns : List Function}

/-- A block that is built from inputs and define steps has these inputs and no others, since steps
add declarations only. -/
theorem inputs_of_buildBlock {table : Table Function} {inputs : List Input} {steps : List Yaml.Node}
    {b : Block} (h : buildBlock anchors table inputs steps = .ok b) : b.inputs = inputs := by
  obtain ⟨b₀, h₀, hsteps⟩ := bind_eq_ok_iff.mp h
  have hinputs : b₀.inputs = inputs :=
    Block.inputs_of_foldlM_addInput (Block.foldlM_of_ofRequests (Block.Attempt.outcome_eq_ok_iff.mp h₀))
  refine foldlM_induction (P := fun b => b.inputs = inputs) ?_ hinputs hsteps
  intro b step b' _ hb hstep
  obtain ⟨_, _, _, _, _, hadd⟩ := Block.defineStep_eq_ok_iff.mp hstep
  exact (Block.addBindings_eq_ok hadd).1.trans hb

/-- A stage of a description fills the globals that its block takes. -/
theorem fills_of_buildStage {table : Table Function} {inputs : List Input} {o : StageOutline}
    {target : String} {b : Block} {st : Stage}
    (h : buildStage anchors table inputs o target = .ok (b, st)) :
    b.Fills (inputs.map Input.param) st := by
  obtain ⟨hb, _, hst⟩ := buildStage_eq_ok h
  exact ⟨buildBlock_consistent hb, by rw [inputs_of_buildBlock hb], Block.body_of_stage hst⟩

/-- The block of the vertex stage takes the uniforms and the attributes, that of the fragment stage takes
the uniforms and the varyings. -/
theorem fills_of_buildProgram {table : Table Function} {o : Outline} {vo fo : StageOutline}
    {p : Program} {vertex fragment : Block}
    (h : buildProgram anchors table o vo fo = .ok (.program p vertex fragment)) :
    vertex.Fills (p.uniforms ++ p.attributes) p.vertex ∧
      fragment.Fills (p.uniforms ++ p.varyings) p.fragment := by
  obtain ⟨_, _, _, _, _, _, _, _, hv, hf, _, rfl, _, hcontent⟩ := exists_of_buildProgram h
  cases hcontent
  have hvertex := fills_of_buildStage hv
  have hfragment := fills_of_buildStage hf
  rw [List.map_append] at hvertex hfragment
  exact ⟨hvertex, hfragment⟩

/-- So it is with every description that has a program. One that has a block instead, or neither,
has none. -/
theorem fills_of_build {o : Outline} {d : Description} (h : build anchors o = .ok d) {p : Program}
    {vertex fragment : Block} (hcontent : d.content = .program p vertex fragment) :
    vertex.Fills (p.uniforms ++ p.attributes) p.vertex ∧
      fragment.Fills (p.uniforms ++ p.varyings) p.fragment := by
  obtain ⟨table, _, h⟩ := bind_eq_ok_iff.mp h
  simp only at h
  split at h
  · obtain ⟨_, _, h⟩ := bind_eq_ok_iff.mp h
    obtain ⟨_, _, h⟩ := bind_eq_ok_iff.mp h
    cases h
    cases hcontent
  · obtain ⟨content, hc, h⟩ := bind_eq_ok_iff.mp h
    cases h
    obtain rfl : content = .program p vertex fragment := hcontent
    exact fills_of_buildProgram hc
  · cases h

/-- In the program of a description the names that nothing keeps apart are those of the varyings in the
vertex stage and that of the color output in the fragment stage. -/
theorem hygienic_iff_of_build {o : Outline} {d : Description} (h : build anchors o = .ok d) {p : Program}
    {vertex fragment : Block} (hcontent : d.content = .program p vertex fragment) :
    p.Hygienic ↔
      (∀ g ∈ p.varyings, g.name ∉ vertex.scope.names) ∧
        p.fragmentOut.name ∉ fragment.scope.names := by
  obtain ⟨hvertex, hfragment⟩ := fills_of_build h hcontent
  have hvaryings : (p.varyings.map Param.name).Nodup := by
    have hdistinct := hfragment.hygienic.distinct
    rw [List.map_append] at hdistinct
    exact (List.nodup_append.mp hdistinct).2.1
  unfold Program.Hygienic Program.vertexGlobals Program.fragmentGlobals
  rw [hvertex.hygienic_append_iff, hfragment.hygienic_append_iff]
  simp [hvaryings]

theorem hygienic_iff_of_read {text : String} {d : Description} (h : read text = .ok d) {p : Program}
    {vertex fragment : Block} (hcontent : d.content = .program p vertex fragment) :
    p.Hygienic ↔
      (∀ g ∈ p.varyings, g.name ∉ vertex.scope.names) ∧
        p.fragmentOut.name ∉ fragment.scope.names := by
  obtain ⟨anchors, o, _, hbuild⟩ := read_eq_ok_iff.mp h
  exact hygienic_iff_of_build hbuild hcontent

end Description

/-! ## Previews -/

namespace Preview

/-- The name of the input that holds the place of a pixel. -/
def placeName (place : String) : String := if place.isEmpty then Rendering.defaultPlace else place

/-- The names that the program of a preview uses itself. -/
def ownNames : List String :=
  [cornerInput.name, placeBinding, returnName, Program.defaultOut.name]

/-- The vertex stage is the same for all places, but for the variable that it writes to. So its
block can be computed once, and only the stage depends on the place. -/
theorem fills_of_vertexStage {place : String} {st : Stage} (h : vertexStage place = .ok st) :
    ∃ b : Block, b.Fills [cornerInput.param] st ∧
      b.scope.names = [cornerInput.name, placeBinding, returnName] := by
  obtain ⟨b₀, h₀, h⟩ := bind_eq_ok_iff.mp h
  obtain ⟨b, hb, h⟩ := bind_eq_ok_iff.mp h
  have hdefine := Block.Attempt.result_eq_ok_iff.mp (mapError_eq_ok_iff.mp hb)
  -- the block and its one step are fixed, so this is a computation
  have hnames : (Block.Attempt.outcome (Block.ofInputs [cornerInput])).toOption.map
      (fun b => ((b.define (some cornerStep)).block.inputs, (b.define (some cornerStep)).block.scope.names)) =
      some ([cornerInput], [cornerInput.name, placeBinding, returnName]) := by
    decide +kernel
  rw [h₀] at hnames
  simp only [Except.toOption, Option.map_some, Option.some.injEq, Prod.mk.injEq, hdefine] at hnames
  have hconsistent : b.Consistent :=
    (Block.consistent_of_ofRequests (Block.Attempt.outcome_eq_ok_iff.mp h₀)).1.define hdefine
  refine ⟨b, ⟨hconsistent, ?_, Block.body_of_stage (mapError_eq_ok_iff.mp h)⟩, hnames.2⟩
  rw [hnames.1]
  rfl

/-- The uniforms of a preview are the inputs of the block other than the place of a pixel, and a
preview can only provide the time and the size. -/
theorem uniforms_eq_ok {place : String} {inputs us : List Input} (h : uniforms place inputs = .ok us) :
    us = inputs.filter (· ≠ ⟨place, .vec2⟩) ∧ ∀ i ∈ us, i = timeInput ∨ i = sizeInput := by
  unfold uniforms at h
  generalize inputs.filter (· ≠ ⟨place, .vec2⟩) = others at h ⊢
  induction others generalizing us with
  | nil =>
      rw [List.mapM_nil] at h
      cases h
      simp
  | cons i others ih =>
      rw [List.mapM_cons] at h
      obtain ⟨i', hi, h⟩ := bind_eq_ok_iff.mp h
      obtain ⟨rest, hrest, h⟩ := bind_eq_ok_iff.mp h
      cases h
      obtain ⟨rfl, hall⟩ := ih hrest
      split at hi
      · next hknown =>
          cases hi
          refine ⟨rfl, List.forall_mem_cons.mpr ⟨?_, hall⟩⟩
          simpa using hknown
      · cases hi

/-- What the program of a preview is made of. -/
structure Draws (b : Block) (place : String) (p : Program) : Prop where
  uniforms_eq : p.uniforms = (b.inputs.filter (· ≠ ⟨place, .vec2⟩)).map Input.param
  known : ∀ g ∈ p.uniforms, g.name = timeInput.name ∨ g.name = sizeInput.name
  attributes_eq : p.attributes = [cornerInput.param]
  varyings_eq : p.varyings = [⟨Shape.vec2.name, place⟩]
  out_eq : p.fragmentOut = Program.defaultOut
  vertex : ∃ v : Block, v.Fills [cornerInput.param] p.vertex ∧
    v.scope.names = [cornerInput.name, placeBinding, returnName]
  fragment : b.Fills (b.inputs.map Input.param) p.fragment

/-- **What a preview that succeeds consists of.** The stages come from two blocks, that of the
corner and the one that is shown. -/
theorem draws_of_program {b : Block} (hb : b.Consistent) {place : String} {fns : List Function}
    {p : Program} (h : program b place fns = .ok p) : Draws b (placeName place) p := by
  obtain ⟨us, hus, h⟩ := bind_eq_ok_iff.mp h
  obtain ⟨_, _, h⟩ := bind_eq_ok_iff.mp h
  obtain ⟨vertex, hvertex, h⟩ := bind_eq_ok_iff.mp h
  obtain ⟨fragment, hfragment, h⟩ := bind_eq_ok_iff.mp h
  obtain ⟨_, _, h⟩ := bind_eq_ok_iff.mp h
  cases h
  obtain ⟨rfl, hknown⟩ := uniforms_eq_ok (mapError_eq_ok_iff.mp hus)
  refine ⟨rfl, ?_, rfl, rfl, rfl, fills_of_vertexStage hvertex, hb, rfl,
    Block.body_of_stage (mapError_eq_ok_iff.mp hfragment)⟩
  intro g hg
  obtain ⟨i, hi, rfl⟩ := List.mem_map.mp hg
  rcases hknown i hi with rfl | rfl
  · exact .inl rfl
  · exact .inr rfl

namespace Draws

variable {b : Block} {place : String} {p : Program}

theorem uniforms_sublist (h : Draws b place p) : p.uniforms.Sublist (b.inputs.map Input.param) := by
  rw [h.uniforms_eq]
  exact List.filter_sublist.map Input.param

/-- The block that is shown keeps its declarations apart from its inputs, and uniforms are among
these. -/
theorem fragment_hygienic_uniforms (h : Draws b place p) : p.fragment.Hygienic p.uniforms :=
  h.fragment.hygienic.sublist h.uniforms_sublist

/-- The uniforms have other names than what stands in the vertex stage. -/
theorem uniforms_fresh (h : Draws b place p) :
    ∀ g ∈ p.uniforms, g.name ∉ [cornerInput.name, placeBinding, returnName] := by
  intro g hg
  rcases h.known g hg with hname | hname
  · rw [hname]
    decide
  · rw [hname]
    decide

theorem vertex_hygienic (h : Draws b place p) : p.vertex.Hygienic (p.uniforms ++ p.attributes) := by
  obtain ⟨v, hv, hnames⟩ := h.vertex
  -- the corner comes first here, as the input of the block, and the uniforms are the other globals
  rw [h.attributes_eq, Stage.hygienic_perm_iff List.perm_append_comm, hv.hygienic_append_iff, hnames]
  exact ⟨h.fragment_hygienic_uniforms.distinct, h.uniforms_fresh⟩

/-- Uniforms are distinct from each other, so the place only has to be distinct from them. -/
theorem nodup_iff (h : Draws b place p) :
    ((p.uniforms ++ p.varyings).map Param.name).Nodup ↔ place ∉ p.uniforms.map Param.name := by
  rw [h.varyings_eq, List.map_append, List.map_singleton, List.perm_append_comm.nodup_iff,
    List.singleton_append, List.nodup_cons]
  exact and_iff_left h.fragment_hygienic_uniforms.distinct

/-- In the vertex stage the place is a global that may clash with uniforms and with what the preview
itself uses there. -/
theorem vertex_hygienic_iff (h : Draws b place p) :
    p.vertex.Hygienic p.vertexGlobals ↔
      place ∉ p.uniforms.map Param.name ∧
        place ∉ [cornerInput.name, placeBinding, returnName] := by
  obtain ⟨v, hv, hnames⟩ := h.vertex
  -- the corner in front, and all that its block knows nothing of behind it
  have hperm : (p.uniforms ++ [cornerInput.param] ++ p.varyings).Perm
      ([cornerInput.param] ++ (p.uniforms ++ p.varyings)) := by
    rw [← List.append_assoc]
    exact List.perm_append_comm.append_right _
  unfold Program.vertexGlobals
  rw [h.attributes_eq, Stage.hygienic_perm_iff hperm, hv.hygienic_append_iff, hnames, h.nodup_iff,
    List.forall_mem_append, h.varyings_eq, List.forall_mem_singleton]
  exact and_congr_right fun _ => and_iff_right h.uniforms_fresh

/-- A block that takes the place of a pixel has all globals of its stage as inputs, but for the color
output. -/
theorem perm_inputs (h : Draws b place p) (hplace : ⟨place, .vec2⟩ ∈ b.inputs) :
    (p.uniforms ++ p.varyings).Perm (b.inputs.map Input.param) := by
  have hnodup : b.inputs.Nodup := List.Nodup.of_map _ (List.Nodup.of_map _ h.fragment.hygienic.distinct)
  -- inputs do not repeat, so leaving out the place is erasing it
  have hothers : b.inputs.filter (· ≠ ⟨place, .vec2⟩) = b.inputs.erase ⟨place, .vec2⟩ := by
    rw [hnodup.erase_eq_filter]
    exact List.filter_congr fun i _ => Bool.eq_iff_iff.mpr (by simp)
  rw [h.uniforms_eq, h.varyings_eq, hothers]
  exact List.perm_append_comm.trans ((List.perm_cons_erase hplace).symm.map Input.param)

/-- Then the color output is the one global that the block knows nothing of. -/
theorem fragment_hygienic_iff_of_mem (h : Draws b place p) (hplace : ⟨place, .vec2⟩ ∈ b.inputs) :
    p.fragment.Hygienic p.fragmentGlobals ↔ Program.defaultOut.name ∉ b.scope.names := by
  unfold Program.fragmentGlobals
  rw [Stage.hygienic_perm_iff ((h.perm_inputs hplace).append_right _),
    h.fragment.hygienic_append_iff, h.out_eq]
  simp

/-- For another block the place of a pixel is one more global that it knows nothing of. -/
theorem fragment_hygienic_iff_of_not_mem (h : Draws b place p)
    (hplace : ⟨place, .vec2⟩ ∉ b.inputs) :
    p.fragment.Hygienic p.fragmentGlobals ↔
      place ≠ Program.defaultOut.name ∧ place ∉ b.scope.names ∧
        Program.defaultOut.name ∉ b.scope.names := by
  have huniforms : p.uniforms = b.inputs.map Input.param := by
    rw [h.uniforms_eq, List.filter_eq_self.mpr]
    intro i hi
    exact decide_eq_true fun heq => hplace (heq ▸ hi)
  unfold Program.fragmentGlobals
  rw [huniforms, List.append_assoc, h.fragment.hygienic_append_iff, h.varyings_eq, h.out_eq]
  simp

/-- **When the program of a preview is hygienic.** The place of a pixel may have none of the names
that the preview uses itself, and it may be in scope in the block only as the input that holds it.
Two cases: the block takes the place of a pixel, or it does not. -/
theorem hygienic_iff (h : Draws b place p) :
    p.Hygienic ↔
      place ∉ ownNames ∧ Program.defaultOut.name ∉ b.scope.names ∧
        (place ∈ b.scope.names → ⟨place, .vec2⟩ ∈ b.inputs) := by
  have hown : place ∉ ownNames ↔
      place ∉ [cornerInput.name, placeBinding, returnName] ∧ place ≠ Program.defaultOut.name := by
    simp [ownNames, and_assoc]
  unfold Program.Hygienic
  rw [h.vertex_hygienic_iff, hown]
  by_cases hplace : (⟨place, .vec2⟩ : Input) ∈ b.inputs
  · -- the block takes the place, so the place is in scope and the color output is not the place
    have hscope : place ∈ b.scope.names := by
      rw [h.fragment.consistent.names_eq]
      exact List.mem_append_left _ (List.mem_map_of_mem hplace)
    have huniforms : place ∉ p.uniforms.map Param.name := by
      rw [← h.nodup_iff, ((h.perm_inputs hplace).map Param.name).nodup_iff]
      exact h.fragment.hygienic.distinct
    rw [h.fragment_hygienic_iff_of_mem hplace]
    constructor
    · rintro ⟨⟨_, hvertex⟩, hout⟩
      exact ⟨⟨hvertex, fun heq => hout (heq ▸ hscope)⟩, hout, fun _ => hplace⟩
    · rintro ⟨⟨hvertex, _⟩, hout, _⟩
      exact ⟨⟨huniforms, hvertex⟩, hout⟩
  · -- the block does not take it, so it must not be in scope at all
    rw [h.fragment_hygienic_iff_of_not_mem hplace]
    constructor
    · rintro ⟨⟨_, hvertex⟩, hne, hscope, hout⟩
      exact ⟨⟨hvertex, hne⟩, hout, fun hmem => absurd hmem hscope⟩
    · rintro ⟨⟨hvertex, hne⟩, hout, himp⟩
      have hscope : place ∉ b.scope.names := mt himp hplace
      refine ⟨⟨fun hmem => hscope ?_, hvertex⟩, hne, hscope, hout⟩
      rw [h.fragment.names_eq]
      exact List.mem_append_left _ ((h.uniforms_sublist.map Param.name).subset hmem)

end Draws

end Preview

/-! ## Hygienic programs -/

namespace Program

/-- **Where the outputs of a program go.** The program of a description is hygienic over the inputs of its
two blocks. Over all globals it is so iff, besides, no varying has a name that is in scope in the vertex
block and the color output has none that is in scope in the fragment block. The program of a preview is
hygienic iff the place of a pixel has none of the names that the preview uses itself and stands in the
block for nothing but the input that holds it, and the block leaves the name of the color output alone.
In a hygienic program every assignment to the name of a global writes that global. -/
theorem stages_hygienic_iff (p : Program) :
    (∀ (anchors : Yaml.Anchors) (o : Outline) (d : Description) (vertex fragment : Block),
      Description.build anchors o = .ok d → d.content = .program p vertex fragment →
        p.vertex.Hygienic (p.uniforms ++ p.attributes) ∧
          p.fragment.Hygienic (p.uniforms ++ p.varyings) ∧
          (p.Hygienic ↔
            (∀ g ∈ p.varyings, g.name ∉ vertex.scope.names) ∧
              p.fragmentOut.name ∉ fragment.scope.names)) ∧
      (∀ (b : Block) (place : String) (functions : List Function),
        b.Consistent → Preview.program b place functions = .ok p →
          p.vertex.Hygienic (p.uniforms ++ p.attributes) ∧ p.fragment.Hygienic p.uniforms ∧
            (p.Hygienic ↔
              Preview.placeName place ∉ Preview.ownNames ∧ defaultOut.name ∉ b.scope.names ∧
                (Preview.placeName place ∈ b.scope.names →
                  ⟨Preview.placeName place, .vec2⟩ ∈ b.inputs))) ∧
      (p.Hygienic →
        p.vertex.WritesGlobals p.vertexGlobals ∧ p.fragment.WritesGlobals p.fragmentGlobals) := by
  refine ⟨?_, ?_, fun hp => ⟨hp.1.writesGlobals, hp.2.writesGlobals⟩⟩
  · intro anchors o d vertex fragment hbuild hcontent
    obtain ⟨hvertex, hfragment⟩ := Description.fills_of_build hbuild hcontent
    exact ⟨hvertex.hygienic, hfragment.hygienic, Description.hygienic_iff_of_build hbuild hcontent⟩
  · intro b place functions hb hprogram
    have hdraws := Preview.draws_of_program hb hprogram
    exact ⟨hdraws.vertex_hygienic, hdraws.fragment_hygienic_uniforms, hdraws.hygienic_iff⟩

end Program

/-- The program of a description with stages. -/
def Content.program? : Content → Option Program
  | .block _ => none
  | .program p _ _ => some p

namespace Program

/-- A description whose vertex stage hands a binding on in the varying `v`. -/
def handOn (binding : String) : Outline :=
  let literal (shape : Shape) (components : List String) : Yaml.Node :=
    .mapping 1 [.word shape.name, .sequence 1 (components.map (.scalar 1 .int))]
  { Outline.bare with
    varyings := Description.declared "v" .vec2
    vertex := some ⟨[.mapping 1 [.word binding, literal .vec2 ["0", "1"],
      .word "returns", literal .vec4 ["0", "0", "0", "1"]]],
      .mapping 1 [.word "v", .word binding], .absent 0⟩
    fragment := some ⟨[Description.assignment "returns" "vec4"
      (.sequence 1 [.word "v", .scalar 1 .int "0", .scalar 1 .int "1"])], .absent 0, .absent 0⟩ }

/-- A block that takes the place of a pixel and is black everywhere. -/
def blackBlock (place : String) : Block :=
  (Block.empty.withInput place .vec2).withDeclaration returnName (.literalOf .vec4 [0, 0, 0, 1])

/-- A binding that is handed on under another name, and a block that is shown with the usual name of
the place. -/
theorem stages_hygienic_iff_handOn :
    (∃ d p vertex fragment, Description.build #[] (handOn "k") = .ok d ∧
        d.content = .program p vertex fragment ∧ p.Hygienic) ∧
      ∃ p, Preview.program (blackBlock "uv") "" [] = .ok p ∧ p.Hygienic := by
  constructor
  · have hfacts : (Description.build #[] (handOn "k")).toOption.map (fun d =>
        (d.content.program?.map fun p => (p.varyings.map Param.name, p.fragmentOut.name),
          d.vertex.scope.names, d.fragment.scope.names)) =
        some (some (["v"], "fragColor"), ["k", "returns"], ["v", "returns"]) := by
      decide +kernel
    cases hbuild : Description.build #[] (handOn "k") with
    | error e =>
        rw [hbuild] at hfacts
        cases hfacts
    | ok d =>
        rw [hbuild] at hfacts
        cases hcontent : d.content with
        | block b => simp [Except.toOption, Content.program?, hcontent] at hfacts
        | program p vertex fragment =>
            simp only [Except.toOption, Option.map_some, Content.program?, Description.vertex,
              Description.fragment, hcontent, Option.some.injEq, Prod.mk.injEq] at hfacts
            obtain ⟨⟨hvaryings, hout⟩, hvertex, hfragment⟩ := hfacts
            have hfresh : ∀ g ∈ p.varyings, g.name = "v" := by
              intro g hg
              have hname : g.name ∈ p.varyings.map Param.name := List.mem_map_of_mem hg
              rw [hvaryings] at hname
              exact List.mem_singleton.mp hname
            refine ⟨d, p, vertex, fragment, rfl, hcontent, ?_⟩
            obtain ⟨hdescription, _⟩ := stages_hygienic_iff p
            rw [(hdescription _ _ d vertex fragment hbuild hcontent).2.2, hvertex, hfragment, hout]
            refine ⟨fun g hg => ?_, by decide⟩
            rw [hfresh g hg]
            decide
  · have hinput := Block.consistent_empty.withInput rfl .vec2 (by decide : "uv" ≠ "") (by decide)
    have hb : (blackBlock "uv").Consistent :=
      hinput.withDeclaration (by decide : returnName ≠ "") (by decide) rfl
    have hok : (Preview.program (blackBlock "uv") "" []).isOk = true := by decide +kernel
    cases hprogram : Preview.program (blackBlock "uv") "" [] with
    | error e =>
        rw [hprogram] at hok
        cases hok
    | ok p =>
        refine ⟨p, rfl, ?_⟩
        obtain ⟨_, hpreview, _⟩ := stages_hygienic_iff p
        rw [(hpreview _ _ _ hb hprogram).2.2]
        decide

/-- A binding of the vertex stage that has the name of a varying is not refused, and neither is a preview
whose place has the name of its own binding. The declaration hides the varying, and what is handed on is
assigned to the declaration. -/
theorem stages_captured :
    (Description.build #[] (handOn "v")).toOption.map (fun d => d.content.program?.map fun p =>
        (decide p.Hygienic, p.vertex.outputs.map Assign.target,
          (p.vertex.resolve? p.vertexGlobals "v").map Variable.isGlobal)) =
        some (some (false, ["gl_Position", "v"], some false)) ∧
      (Preview.program (blackBlock "texCoord") "texCoord" []).toOption.map (fun p =>
        (decide p.Hygienic, p.vertex.outputs.map Assign.target,
          (p.vertex.resolve? p.vertexGlobals "texCoord").map Variable.isGlobal)) =
        some (false, ["gl_Position", "texCoord"], some false) := by
  decide +kernel

end Program

end ShaderExpr
