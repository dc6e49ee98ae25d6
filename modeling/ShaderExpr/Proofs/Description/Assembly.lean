import ShaderExpr.Description
import ShaderExpr.Proofs.Description.Reading

/-!
# What a description is assembled from

A description that can be built is made of blocks: one for each function, over the functions before it, and
one or two over all of them. Everything that is said about descriptions is said about these blocks first
and then carried over the list of functions. The lemmas here take the building apart once.

* **`Table.ofFunctions`** — the functions of a list under their names, as building keeps them.
* **`buildBlock_eq_ok`** — a block is a block of inputs with define steps after it.
* **`Assembled`** — functions, each made from a block over those before it.
* **`buildProgram_eq_ok`** — what the parts of a program come from.
* **`build_eq_ok`** — what a description is made of.
-/

namespace ShaderExpr

/-- Where no two elements have the same name, an element is found by its name. Induction on the
list: an earlier element with the name would be a second one. -/
theorem find?_eq_some_of_nodup {α : Type} {name : α → String} {l : List α} (hnodup : (l.map name).Nodup)
    {x : α} (hx : x ∈ l) : l.find? (name · == name x) = some x := by
  induction l with
  | nil => cases hx
  | cons first l ih =>
      rw [List.map_cons, List.nodup_cons] at hnodup
      rcases List.mem_cons.mp hx with rfl | hx
      · simp
      · have hne : name first ≠ name x := by
          intro heq
          exact hnodup.1 (heq ▸ List.mem_map_of_mem hx)
        rw [List.find?_cons_of_neg (by simpa using hne)]
        exact ih hnodup.2 hx

/-! ## Functions in a table -/

namespace Table

/-- The functions of a list under their names. -/
def ofFunctions (fns : List Function) : Table Function := ⟨fns.map fun fn => (fn.name, fn)⟩

theorem map_snd_ofFunctions (fns : List Function) :
    (ofFunctions fns).entries.map Prod.snd = fns := by
  unfold ofFunctions
  rw [List.map_map]
  exact List.map_id fns

/-- A look-up in the table of functions is a search through their list. -/
theorem get?_ofFunctions (fns : List Function) (name : String) :
    (ofFunctions fns).get? name = fns.find? (·.name == name) := by
  unfold get? ofFunctions
  induction fns with
  | nil => rfl
  | cons fn fns ih =>
      rw [List.map_cons, find?, ih, List.find?_cons]
      by_cases hname : fn.name = name
      · rw [if_pos hname, hname, beq_self_eq_true]
      · rw [if_neg hname, beq_false_of_ne hname]

theorem get?_ofFunctions_eq_none_iff {fns : List Function} {name : String} :
    (ofFunctions fns).get? name = none ↔ name ∉ fns.map Function.name := by
  rw [get?_ofFunctions]
  simp

theorem contains_ofFunctions_eq_false_iff {fns : List Function} {name : String} :
    (ofFunctions fns).contains name = false ↔ name ∉ fns.map Function.name := by
  unfold contains
  rw [Option.isSome_eq_false_iff, Option.isNone_iff_eq_none, get?_ofFunctions_eq_none_iff]

/-- With distinct names every function is the one that its name finds. -/
theorem get?_ofFunctions_of_mem {fns : List Function} (hnodup : (fns.map Function.name).Nodup)
    {fn : Function} (hfn : fn ∈ fns) : (ofFunctions fns).get? fn.name = some fn := by
  rw [get?_ofFunctions]
  exact find?_eq_some_of_nodup hnodup hfn

/-- A function whose name is not there yet comes last, so the table keeps the order in which
functions were added. -/
theorem insert_ofFunctions {fns : List Function} {fn : Function}
    (h : fn.name ∉ fns.map Function.name) :
    (ofFunctions fns).insert fn.name fn = ofFunctions (fns ++ [fn]) := by
  have hnone : find? fn.name (fns.map fun fn => (fn.name, fn)) = none :=
    get?_ofFunctions_eq_none_iff.mpr h
  unfold insert ofFunctions
  rw [put_of_find?_eq_none hnone, List.map_append]
  rfl

end Table

/-! ## Blocks and functions -/

namespace Description

variable {anchors : Yaml.Anchors} {fns : List Function}

/-- **A block is a block of inputs with define steps after it.** The inputs come first and give a
block without declarations, which the steps then extend one after the other. -/
theorem buildBlock_eq_ok {table : Table Function} {inputs : List Input} {steps : List Yaml.Node}
    {b : Block} (h : buildBlock anchors table inputs steps = .ok b) :
    ∃ b₀ : Block, b₀.Consistent ∧ b₀.declarations = [] ∧
      steps.foldlM (fun b step => b.defineStep anchors table step) b₀ = .ok b := by
  obtain ⟨b₀, h₀, hsteps⟩ := bind_eq_ok_iff.mp h
  obtain ⟨hb₀, hnone⟩ := Block.consistent_of_ofRequests (Block.Attempt.outcome_eq_ok_iff.mp h₀)
  exact ⟨b₀, hb₀, hnone, hsteps⟩

/-- A block that is built has the invariant: the inputs give it one that has, and each step keeps
it. -/
theorem buildBlock_consistent {table : Table Function} {inputs : List Input}
    {steps : List Yaml.Node} {b : Block} (h : buildBlock anchors table inputs steps = .ok b) :
    b.Consistent := by
  obtain ⟨b₀, hb₀, _, hsteps⟩ := buildBlock_eq_ok h
  exact foldlM_induction (fun _ _ _ _ hb hstep => hb.defineStep hstep) hb₀ hsteps

theorem name_of_function {b : Block} {name : String} {fn : Function}
    (h : b.function name = .ok fn) : fn.name = name := by
  obtain ⟨_, _, h⟩ := bind_eq_ok_iff.mp h
  obtain ⟨_, _, h⟩ := bind_eq_ok_iff.mp h
  cases h
  rfl

/-- A function that is added comes last. It is made from a block, which may call the functions before
it. -/
theorem addFunction_eq_ok {o : FunctionOutline} {t : Table Function}
    (h : addFunction anchors (.ofFunctions fns) o = .ok t) :
    ∃ (inputs : List Input) (b : Block) (fn : Function),
      buildBlock anchors (.ofFunctions fns) inputs o.steps = .ok b ∧ b.function o.name = .ok fn ∧
        o.name ∉ fns.map Function.name ∧ t = .ofFunctions (fns ++ [fn]) := by
  unfold addFunction at h
  simp only at h
  split at h
  · cases h
  split at h
  · cases h
  · next hfresh =>
      -- a name that is empty or taken fails before anything is read
      obtain ⟨inputs, _, h⟩ := bind_eq_ok_iff.mp h
      obtain ⟨b, hb, h⟩ := bind_eq_ok_iff.mp h
      obtain ⟨fn, hfn, h⟩ := bind_eq_ok_iff.mp h
      cases h
      have hfn := mapError_eq_ok_iff.mp hfn
      have hfresh : o.name ∉ fns.map Function.name :=
        Table.contains_ofFunctions_eq_false_iff.mp (Bool.eq_false_iff.mpr hfresh)
      refine ⟨inputs, b, fn, Outcome.inside_eq_ok_iff.mp hb, hfn, hfresh, ?_⟩
      rw [← name_of_function hfn] at hfresh ⊢
      exact Table.insert_ofFunctions hfresh

/-- Functions with distinct names, each made from a block that is built over those before it. -/
inductive Assembled (anchors : Yaml.Anchors) : List Function → Prop where
  | nil : Assembled anchors []
  | snoc {fns : List Function} {inputs : List Input} {steps : List Yaml.Node} {b : Block}
      {name : String} {fn : Function} (hfns : Assembled anchors fns)
      (hb : buildBlock anchors (.ofFunctions fns) inputs steps = .ok b)
      (hfn : b.function name = .ok fn) (hfresh : name ∉ fns.map Function.name) :
      Assembled anchors (fns ++ [fn])

/-- Functions that are added one after the other are assembled. Induction on their outlines, each of
which is built over the functions before it. -/
theorem Assembled.foldlM_addFunction (hfns : Assembled anchors fns) {os : List FunctionOutline}
    {t : Table Function} (h : os.foldlM (addFunction anchors) (.ofFunctions fns) = .ok t) :
    ∃ more, t = .ofFunctions more ∧ Assembled anchors more := by
  induction os generalizing fns with
  | nil =>
      rw [List.foldlM_nil] at h
      cases h
      exact ⟨fns, rfl, hfns⟩
  | cons o os ih =>
      rw [List.foldlM_cons] at h
      obtain ⟨t₁, h₁, h₂⟩ := bind_eq_ok_iff.mp h
      obtain ⟨inputs, b, fn, hb, hfn, hfresh, rfl⟩ := addFunction_eq_ok h₁
      exact ih (.snoc hfns hb hfn hfresh) h₂

/-- A function with a name that is taken would have been refused. -/
theorem Assembled.nodup_names (h : Assembled anchors fns) : (fns.map Function.name).Nodup := by
  induction h with
  | nil => exact List.nodup_nil
  | snoc _ _ hfn hfresh ih =>
      rw [List.map_append, List.map_singleton, name_of_function hfn, List.nodup_append]
      refine ⟨ih, List.pairwise_singleton _ _, ?_⟩
      rintro x hx y hy rfl
      rw [List.mem_singleton.mp hy] at hx
      exact hfresh hx

/-! ## Programs -/

/-- What the parts of a program with two blocks come from. -/
structure Staged (anchors : Yaml.Anchors) (fns : List Function) (vo fo : StageOutline) (p : Program)
    (vertex fragment : Block) : Prop where
  vertexBlock : ∃ inputs, buildBlock anchors (.ofFunctions fns) inputs vo.steps = .ok vertex
  fragmentBlock : ∃ inputs, buildBlock anchors (.ofFunctions fns) inputs fo.steps = .ok fragment
  vertexStage : ∃ target outputs, vertex.stage target outputs = .ok p.vertex
  fragmentStage : ∃ target outputs, fragment.stage target outputs = .ok p.fragment
  functions : p.functions = fns
  checked : p.check = .ok ()

/-- A stage is a block, turned into statements that assign its outputs and its target. -/
theorem buildStage_eq_ok {table : Table Function} {inputs : List Input} {o : StageOutline}
    {target : String} {b : Block} {st : Stage}
    (h : buildStage anchors table inputs o target = .ok (b, st)) :
    buildBlock anchors table inputs o.steps = .ok b ∧ ∃ outputs, b.stage target outputs = .ok st := by
  obtain ⟨b', hb, h⟩ := bind_eq_ok_iff.mp h
  obtain ⟨outputs, _, h⟩ := bind_eq_ok_iff.mp h
  obtain ⟨st', hst, h⟩ := bind_eq_ok_iff.mp h
  cases h
  exact ⟨hb, outputs, mapError_eq_ok_iff.mp hst⟩

/-- The program of an outline has two stages, the one over the uniforms and the attributes, the
other over the uniforms and the varyings. This takes the whole chain apart once; what follows names
only the parts. -/
theorem exists_of_buildProgram {table : Table Function} {o : Outline} {vo fo : StageOutline}
    {c : Content} (h : buildProgram anchors table o vo fo = .ok c) :
    ∃ uniforms attributes varyings out vertex fragment vs fs,
      buildStage anchors table (uniforms ++ attributes) vo Program.vertexTarget = .ok (vertex, vs) ∧
      buildStage anchors table (uniforms ++ varyings) fo out.name = .ok (fragment, fs) ∧
      ∃ p : Program, p = ⟨o.version, uniforms.map Input.param, attributes.map Input.param,
          varyings.map Input.param, out, vs, fs, table.entries.map Prod.snd⟩ ∧
        p.check = .ok () ∧ c = .program p vertex fragment := by
  unfold buildProgram at h
  simp only at h
  split at h
  · cases h
  · obtain ⟨uniforms, _, h⟩ := bind_eq_ok_iff.mp h
    obtain ⟨attributes, _, h⟩ := bind_eq_ok_iff.mp h
    obtain ⟨varyings, _, h⟩ := bind_eq_ok_iff.mp h
    obtain ⟨out, _, h⟩ := bind_eq_ok_iff.mp h
    -- the inputs are shared by the stages, so they are read before either is built
    obtain ⟨⟨vb, vs⟩, hv, h⟩ := bind_eq_ok_iff.mp h
    obtain ⟨⟨fb, fs⟩, hf, h⟩ := bind_eq_ok_iff.mp h
    obtain ⟨_, hcheck, h⟩ := bind_eq_ok_iff.mp h
    cases h
    exact ⟨uniforms, attributes, varyings, out, vb, fb, vs, fs, Outcome.inside_eq_ok_iff.mp hv,
      Outcome.inside_eq_ok_iff.mp hf, _, rfl, mapError_eq_ok_iff.mp hcheck, rfl⟩

/-- **What the parts of a program come from**: both stages from blocks over the same functions,
which the program has too. -/
theorem buildProgram_eq_ok {o : Outline} {vo fo : StageOutline} {c : Content}
    (h : buildProgram anchors (.ofFunctions fns) o vo fo = .ok c) :
    ∃ p vertex fragment, c = .program p vertex fragment ∧
      Staged anchors fns vo fo p vertex fragment := by
  obtain ⟨_, _, _, _, vertex, fragment, vs, fs, hv, hf, p, rfl, hcheck, rfl⟩ :=
    exists_of_buildProgram h
  obtain ⟨hvertex, voutputs, hvs⟩ := buildStage_eq_ok hv
  obtain ⟨hfragment, foutputs, hfs⟩ := buildStage_eq_ok hf
  exact ⟨_, vertex, fragment, rfl, ⟨_, hvertex⟩, ⟨_, hfragment⟩, ⟨_, _, hvs⟩, ⟨_, _, hfs⟩,
    Table.map_snd_ofFunctions fns, hcheck⟩

/-! ## Descriptions -/

/-- The block, or those of the two stages. -/
def blocks (d : Description) : List Block :=
  match d.content with
  | .block b => [b]
  | .program _ vertex fragment => [vertex, fragment]

/-- The functions of a description are those that were added one after the other, whatever there is
beside them. -/
theorem functions_of_build {o : Outline} {d : Description} (h : build anchors o = .ok d) :
    ∃ t, o.functions.foldlM (addFunction anchors) .empty = .ok t ∧
      d.functions = t.entries.map Prod.snd := by
  obtain ⟨t, ht, h⟩ := bind_eq_ok_iff.mp h
  refine ⟨t, ht, ?_⟩
  simp only at h
  split at h
  · obtain ⟨_, _, h⟩ := bind_eq_ok_iff.mp h
    obtain ⟨_, _, h⟩ := bind_eq_ok_iff.mp h
    cases h
    rfl
  · obtain ⟨_, _, h⟩ := bind_eq_ok_iff.mp h
    cases h
    rfl
  · cases h

/-- **What a description is made of**: assembled functions, and beside them a block that is built
over them, or a program. Which of the two it is, the stages of the outline tell; with one stage
only, nothing is built. -/
theorem build_eq_ok {o : Outline} {d : Description} (h : build anchors o = .ok d) :
    Assembled anchors d.functions ∧
      ((∃ b inputs, d.content = .block b ∧
          buildBlock anchors (.ofFunctions d.functions) inputs o.steps = .ok b) ∨
        ∃ vo fo p vertex fragment, d.content = .program p vertex fragment ∧
          Staged anchors d.functions vo fo p vertex fragment) := by
  obtain ⟨t, ht, h⟩ := bind_eq_ok_iff.mp h
  obtain ⟨fns, rfl, hfns⟩ := Assembled.nil.foldlM_addFunction ht
  -- no stages, both stages, or one of them alone
  simp only [Table.map_snd_ofFunctions] at h
  split at h
  · obtain ⟨inputs, _, h⟩ := bind_eq_ok_iff.mp h
    obtain ⟨b, hb, h⟩ := bind_eq_ok_iff.mp h
    cases h
    exact ⟨hfns, .inl ⟨b, inputs, rfl, hb⟩⟩
  · obtain ⟨c, hc, h⟩ := bind_eq_ok_iff.mp h
    cases h
    obtain ⟨p, vertex, fragment, rfl, hparts⟩ := buildProgram_eq_ok hc
    exact ⟨hfns, .inr ⟨_, _, p, vertex, fragment, rfl, hparts⟩⟩
  · cases h

/-- Every block of a description is built over its functions. -/
theorem exists_buildBlock {o : Outline} {d : Description} (h : build anchors o = .ok d) {b : Block}
    (hb : b ∈ d.blocks) :
    ∃ inputs steps, buildBlock anchors (.ofFunctions d.functions) inputs steps = .ok b := by
  unfold blocks at hb
  rcases (build_eq_ok h).2 with ⟨b', inputs, hcontent, hb'⟩ | ⟨vo, fo, p, vertex, fragment, hcontent, hparts⟩
  · rw [hcontent, List.mem_singleton] at hb
    rw [hb]
    exact ⟨inputs, o.steps, hb'⟩
  · simp only [hcontent, List.mem_cons, List.not_mem_nil, or_false] at hb
    -- a program has the two blocks of its stages
    rcases hb with rfl | rfl
    · obtain ⟨inputs, hvertex⟩ := hparts.vertexBlock
      exact ⟨inputs, _, hvertex⟩
    · obtain ⟨inputs, hfragment⟩ := hparts.fragmentBlock
      exact ⟨inputs, _, hfragment⟩

/-- What is read from a text is built from its outline. So what holds of all descriptions that are built,
from any outline over any anchored nodes, holds of those that are read. -/
theorem read_eq_ok_iff {text : String} {d : Description} :
    read text = .ok d ↔ ∃ anchors o, outline text = .ok (anchors, o) ∧ build anchors o = .ok d := by
  unfold read
  rw [bind_eq_ok_iff]
  simp only [Outcome.inside_eq_ok_iff, Outcome.ofError, mapError_eq_ok_iff, Prod.exists]

end Description

/-! ## Small outlines -/

/-- The node of a plain word. -/
def Yaml.Node.word (text : String) : Yaml.Node := .scalar 1 .str text

/-- The outline of a document without fields. -/
def Outline.bare : Outline := ⟨"", .absent 0, [], .absent 0, .absent 0, .absent 0, [], none, none⟩

namespace Description

/-- The node of `{name: shape}`. -/
def declared (name : String) (shape : Shape) : Yaml.Node := .mapping 1 [.word name, .word shape.name]

/-- The node of `{name: {operation: value}}`. -/
def assignment (name operation : String) (value : Yaml.Node) : Yaml.Node :=
  .mapping 1 [.word name, .mapping 1 [.word operation, value]]

end Description

end ShaderExpr
