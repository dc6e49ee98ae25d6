import ShaderExpr.Proofs.Description.Assembly
import ShaderExpr.Proofs.Description.Shaping

/-!
# Descriptions are closed

Every block of a description that was built is the work of its define steps, in their order, and a
function is read before the functions and blocks that call it. So a declaration names nothing that comes
with it or after it, and its shape can be computed from what comes before.

* **`Declaration.ClosedOver`** — a declaration uses only what it is given, and has the shape that is
  computed from it.
* **`Block.ClosedBy`** — the declarations of a block come from define steps, and those of a step are
  closed over the inputs and the declarations of earlier steps.
* **`Block.Consistent.foldlM_defineStep_shaped`** — what define steps add to a block.
* **`foldlM_addFunction`** — what functions are added to those before them.
* **`build_closed`** — all blocks of a description are closed.
-/

namespace ShaderExpr

/-! ## Closed blocks -/

/-- The declaration names and calls nothing but the variables and functions that it is given, none of the
declarations that come with it or later, and it has the shape that is computed from what it is given. -/
structure Declaration.ClosedOver (fns : List Function) (known : List Input)
    (later : List Declaration) (d : Declaration) : Prop where
  vars : ∀ x ∈ d.value.vars, x ∈ known.map Input.name ∧ x ∉ later.map Declaration.name
  calls : ∀ c ∈ d.value.calls, Node.Callable fns c
  shape : d.value.shape? fns known = some d.shape

/-- The names that a define step binds. -/
def Yaml.Node.boundNames : Yaml.Node → List String
  | .mapping _ content => Vocabulary.boundNames content
  | _ => []

/-- The declarations of a block come in groups, one for each define step, with the names that the step
binds. Those of a group are closed over the inputs of the block and the declarations of the groups before
it. -/
def Block.ClosedBy (b : Block) (fns : List Function) (steps : List Yaml.Node) : Prop :=
  ∃ groups : List (List Declaration),
    b.declarations = groups.flatten ∧
    groups.map (fun group => group.map Declaration.name) = steps.map Yaml.Node.boundNames ∧
    ∀ before group after, groups = before ++ group :: after →
      ∀ d ∈ group, d.ClosedOver fns (b.inputs ++ before.flatten.map Declaration.input)
        (group :: after).flatten

/-- The blocks beside the functions come from the define steps of an outline. -/
def Content.ClosedBy (c : Content) (fns : List Function) (o : Outline) : Prop :=
  match c with
  | .block b => b.ClosedBy fns o.steps
  | .program _ vertex fragment =>
    ∃ vo fo, o.vertex = some vo ∧ o.fragment = some fo ∧
      vertex.ClosedBy fns vo.steps ∧ fragment.ClosedBy fns fo.steps

/-! ## What define steps add -/

namespace Block

variable {b b' : Block} {fns : List Function} {anchors : Yaml.Anchors}

/-- In a table of references a name is found where it is found among the names that are referred to. -/
theorem find?_map_var (names : List Input) (name : String) :
    Table.find? name (names.map fun i => (i.name, Expr.var i.name i.shape)) =
      (names.find? (name == ·.name)).map fun i => .var i.name i.shape := by
  induction names with
  | nil => rfl
  | cons i names ih =>
      rw [List.map_cons, Table.find?, List.find?_cons, ih]
      by_cases hname : i.name = name
      · rw [if_pos hname, hname, beq_self_eq_true, Option.map_some, hname]
      · rw [if_neg hname, beq_false_of_ne (Ne.symm hname)]

/-- A name in scope stands for a variable, which has the shape that the name was declared with: the
table lists the inputs and the declarations in their order. -/
theorem Consistent.shape?_of_get? (hb : b.Consistent) {name : String} {e : Expr}
    (h : b.scope.get? name = some e) :
    e.node.shape? fns (b.inputs ++ b.declarations.map Declaration.input) = some e.shape := by
  have hentries : b.scope.table.entries = (b.inputs ++ b.declarations.map Declaration.input).map
      fun i => (i.name, .var i.name i.shape) := by
    rw [hb.entries_eq, listing, List.map_append, List.map_map]
    rfl
  rw [Scope.get?_eq_table, Table.get?, hentries, find?_map_var] at h
  obtain ⟨i, hi, rfl⟩ := Option.map_eq_some_iff.mp h
  have hname := List.find?_some hi
  obtain rfl : name = i.name := eq_of_beq hname
  show (List.find? _ _).map _ = _
  rw [hi]
  rfl

/-- A define step adds a declaration for each of its names, and each has the shape that is computed
from what was declared before the step. All bindings of a step are read before the first is added,
so none of them sees another. -/
theorem Consistent.defineStep_shaped (hb : b.Consistent) {step : Yaml.Node}
    (h : b.defineStep anchors (.ofFunctions fns) step = .ok b') :
    ∃ group, b'.inputs = b.inputs ∧ b'.declarations = b.declarations ++ group ∧
      group.map Declaration.name = step.boundNames ∧
      ∀ d ∈ group,
        d.value.shape? fns (b.inputs ++ b.declarations.map Declaration.input) = some d.shape := by
  obtain ⟨line, content, bindings, rfl, hread, hadd⟩ := defineStep_eq_ok_iff.mp h
  obtain ⟨hinputs, group, rfl, hdeclarations⟩ := addBindings_eq_ok hadd
  obtain ⟨hnames, hvalues⟩ := Vocabulary.readBindings_eq_ok hread
  rw [List.map_map] at hnames
  refine ⟨group, hinputs, hdeclarations, hnames, fun d hd => ?_⟩
  obtain ⟨n, e, he, hn⟩ := hvalues d.binding (List.mem_map_of_mem hd)
  cases he
  -- shapes of calls and of names agree with what the vocabulary has for them
  refine Vocabulary.shape?_of_made ?_ ?_ (Vocabulary.made_of_read hn)
  · intro key fn hget
    rw [← Table.get?_ofFunctions]
    exact hget
  · intro name e hget
    exact hb.shape?_of_get? hget

/-- **What define steps add to a block**: a group of declarations for each step. Induction on the steps,
each of which sees the groups of those before it. -/
theorem Consistent.foldlM_defineStep_shaped (hb : b.Consistent) {steps : List Yaml.Node}
    (h : steps.foldlM (fun b step => b.defineStep anchors (.ofFunctions fns) step) b = .ok b') :
    ∃ groups, b'.inputs = b.inputs ∧ b'.declarations = b.declarations ++ groups.flatten ∧
      groups.map (fun group => group.map Declaration.name) = steps.map Yaml.Node.boundNames ∧
      ∀ before group after, groups = before ++ group :: after → ∀ d ∈ group,
        d.value.shape? fns (b.inputs ++ (b.declarations ++ before.flatten).map Declaration.input) =
          some d.shape := by
  induction steps generalizing b with
  | nil =>
      rw [List.foldlM_nil] at h
      cases h
      refine ⟨[], rfl, (List.append_nil _).symm, rfl, fun before group after heq => ?_⟩
      cases (List.append_eq_nil_iff.mp heq.symm).2
  | cons step steps ih =>
      rw [List.foldlM_cons] at h
      obtain ⟨b₁, h₁, h₂⟩ := bind_eq_ok_iff.mp h
      obtain ⟨first, hinputs₁, hdeclarations₁, hnames₁, hshaped₁⟩ := hb.defineStep_shaped h₁
      obtain ⟨groups, hinputs, hdeclarations, hnames, hshaped⟩ := ih (hb.defineStep h₁) h₂
      refine ⟨first :: groups, hinputs.trans hinputs₁, ?_, ?_, ?_⟩
      · rw [hdeclarations, hdeclarations₁, List.flatten_cons, List.append_assoc]
      · rw [List.map_cons, List.map_cons, hnames₁, hnames]
      · -- the first group is that of this step, the others have it among what comes before them
        intro before group after heq d hd
        cases before with
        | nil =>
            obtain ⟨rfl, rfl⟩ := List.cons.inj heq
            rw [List.flatten_nil, List.append_nil]
            exact hshaped₁ d hd
        | cons _ before =>
            obtain ⟨rfl, hgroups⟩ := List.cons.inj heq
            have hd := hshaped before group after hgroups d hd
            rwa [hinputs₁, hdeclarations₁, List.append_assoc, ← List.flatten_cons] at hd

end Block

namespace Description

variable {anchors : Yaml.Anchors} {fns : List Function}

/-- A block that is built from inputs and define steps is closed. That nothing from the same step or
later is named follows from names being distinct: what is named comes before. -/
theorem buildBlock_closed {inputs : List Input} {steps : List Yaml.Node} {b : Block}
    (h : buildBlock anchors (.ofFunctions fns) inputs steps = .ok b) : b.ClosedBy fns steps := by
  have hb := buildBlock_consistent h
  obtain ⟨b₀, hb₀, hnone, hsteps⟩ := buildBlock_eq_ok h
  obtain ⟨groups, hinputs, hdeclarations, hnames, hshaped⟩ := hb₀.foldlM_defineStep_shaped hsteps
  rw [hnone, List.nil_append] at hdeclarations
  refine ⟨groups, hdeclarations, hnames, fun before group after heq d hd => ?_⟩
  have hshape := hshaped before group after heq d hd
  rw [hnone, List.nil_append, ← hinputs] at hshape
  obtain ⟨hvars, hcalls⟩ := Node.closed_of_shape? hshape
  refine ⟨fun x hx => ⟨hvars x hx, fun hlater => ?_⟩, hcalls, hshape⟩
  -- no name of the block is there twice
  have hnodup := hb.nodup
  rw [hb.names_eq, hdeclarations, heq, List.flatten_append, List.map_append, ← List.append_assoc,
    List.nodup_append] at hnodup
  have hknown := hvars x hx
  rw [List.map_append, List.map_map] at hknown
  exact hnodup.2.2 x hknown x hlater rfl

/-! ## What is read -/

/-- **Functions are closed over those before them.** Induction on their outlines, each of which sees the
functions of the outlines before it. -/
theorem foldlM_addFunction {os : List FunctionOutline} {t : Table Function}
    (h : os.foldlM (addFunction anchors) (.ofFunctions fns) = .ok t) :
    ∃ more, t = .ofFunctions (fns ++ more) ∧ more.length = os.length ∧
      ∀ i o fn, os[i]? = some o → more[i]? = some fn →
        ∃ b : Block, b.function o.name = .ok fn ∧ b.ClosedBy (fns ++ more.take i) o.steps := by
  induction os generalizing fns with
  | nil =>
      rw [List.foldlM_nil] at h
      cases h
      exact ⟨[], by rw [List.append_nil], rfl, nofun⟩
  | cons o os ih =>
      rw [List.foldlM_cons] at h
      obtain ⟨t₁, h₁, h₂⟩ := bind_eq_ok_iff.mp h
      obtain ⟨inputs, b, fn, hb, hfn, _, rfl⟩ := addFunction_eq_ok h₁
      obtain ⟨more, rfl, hlength, hmore⟩ := ih h₂
      refine ⟨fn :: more, by rw [List.append_assoc]; rfl, congrArg (· + 1) hlength, ?_⟩
      intro i o' fn' ho' hfn'
      cases i with
      | zero =>
          -- the first function sees those that were there already
          cases ho'
          cases hfn'
          refine ⟨b, hfn, ?_⟩
          rw [List.take_zero, List.append_nil]
          exact buildBlock_closed hb
      | succ i =>
          obtain ⟨b', hb', hclosed'⟩ := hmore i o' fn' ho' hfn'
          refine ⟨b', hb', ?_⟩
          rwa [List.append_assoc] at hclosed'

/-- The blocks of both stages are closed over the functions of the program. -/
theorem buildProgram_closed {o : Outline} {vo fo : StageOutline} {c : Content}
    (hvertex : o.vertex = some vo) (hfragment : o.fragment = some fo)
    (h : buildProgram anchors (.ofFunctions fns) o vo fo = .ok c) : c.ClosedBy fns o := by
  obtain ⟨p, vb, fb, rfl, hparts⟩ := buildProgram_eq_ok h
  obtain ⟨_, hvb⟩ := hparts.vertexBlock
  obtain ⟨_, hfb⟩ := hparts.fragmentBlock
  exact ⟨vo, fo, hvertex, hfragment, buildBlock_closed hvb, buildBlock_closed hfb⟩

/-- The functions of a description are those of its outline, in the same order, each closed over the ones
before it. -/
theorem functions_closed {o : Outline} {d : Description} (h : build anchors o = .ok d) :
    d.functions.length = o.functions.length ∧
      ∀ i fo fn, o.functions[i]? = some fo → d.functions[i]? = some fn →
        ∃ b : Block, b.function fo.name = .ok fn ∧ b.ClosedBy (d.functions.take i) fo.steps := by
  obtain ⟨t, ht, hfunctions⟩ := functions_of_build h
  obtain ⟨fns, rfl, hlength, hfns⟩ := @foldlM_addFunction anchors [] o.functions t ht
  simp only [List.nil_append, Table.map_snd_ofFunctions] at hfns hfunctions
  rw [hfunctions]
  exact ⟨hlength, hfns⟩

/-- The block of a description, or those of its stages, are closed over all of its functions. -/
theorem content_closed {o : Outline} {d : Description} (h : build anchors o = .ok d) :
    d.content.ClosedBy d.functions o := by
  obtain ⟨t, ht, h⟩ := bind_eq_ok_iff.mp h
  obtain ⟨fns, rfl, _⟩ := @foldlM_addFunction anchors [] o.functions t ht
  simp only [List.nil_append, Table.map_snd_ofFunctions] at h
  -- no stages, both stages, or one of them alone
  split at h
  · obtain ⟨inputs, _, h⟩ := bind_eq_ok_iff.mp h
    obtain ⟨b, hb, h⟩ := bind_eq_ok_iff.mp h
    cases h
    exact buildBlock_closed hb
  · next hvertex hfragment =>
      obtain ⟨c, hc, h⟩ := bind_eq_ok_iff.mp h
      cases h
      exact buildProgram_closed hvertex hfragment hc
  · cases h

/-- **Descriptions are closed.** In every description that can be built, from whatever nodes, the block of
each function is the work of the define steps of its outline, over the functions before it, and so are the
block or the two stages over all functions: a declaration of a step names only inputs of its block and
declarations of earlier steps, calls only operations, constructors and those functions, with as many
arguments as they have parameters, and is declared with the shape that is computed from all that. -/
theorem build_closed {o : Outline} {d : Description} (h : build anchors o = .ok d) :
    d.functions.length = o.functions.length ∧
      (∀ i fo fn, o.functions[i]? = some fo → d.functions[i]? = some fn →
        ∃ b : Block, b.function fo.name = .ok fn ∧ b.ClosedBy (d.functions.take i) fo.steps) ∧
      d.content.ClosedBy d.functions o :=
  ⟨(functions_closed h).1, (functions_closed h).2, content_closed h⟩

/-- A function, and a block of two define steps, the second of which calls it on what the first
declares. -/
def halved : Outline :=
  { Outline.bare with
    steps := [.mapping 1 [.word "k", .scalar 1 .int "2"], assignment "p" "half" (.word "k")]
    functions := [⟨"half", declared "x" .float,
      [assignment "returns" "mult" (.sequence 1 [.word "x", .scalar 1 .float "0.5"])]⟩] }

/-- The function is closed over no functions, and the block over it. -/
theorem build_closed_halved :
    ∃ d, build #[] halved = .ok d ∧ d.functions.map Function.name = ["half"] ∧
      d.block.declarations.map Declaration.name = ["k", "p"] ∧
      (∀ i fo fn, halved.functions[i]? = some fo → d.functions[i]? = some fn →
        ∃ b : Block, b.function fo.name = .ok fn ∧ b.ClosedBy (d.functions.take i) fo.steps) ∧
      d.content.ClosedBy d.functions halved := by
  have hnames : (build #[] halved).toOption.map (fun d => (d.functions.map Function.name,
      d.block.declarations.map Declaration.name)) = some (["half"], ["k", "p"]) := by
    decide +kernel
  cases hbuild : build #[] halved with
  | error e =>
      rw [hbuild] at hnames
      cases hnames
  | ok d =>
      rw [hbuild] at hnames
      obtain ⟨hfunctions, hdeclarations⟩ := Prod.mk.inj (Option.some.inj hnames)
      obtain ⟨_, hfns, hcontent⟩ := build_closed hbuild
      exact ⟨d, rfl, hfunctions, hdeclarations, hfns, hcontent⟩

/-- A description that is read from a text is closed in the same sense, by the steps of the outline that
the text has. -/
theorem read_closed {text : String} {d : Description} (h : read text = .ok d) :
    ∃ anchors o, outline text = .ok (anchors, o) ∧
      (∀ i fo fn, o.functions[i]? = some fo → d.functions[i]? = some fn →
        ∃ b : Block, b.function fo.name = .ok fn ∧ b.ClosedBy (d.functions.take i) fo.steps) ∧
      d.content.ClosedBy d.functions o := by
  obtain ⟨anchors, o, houtline, hbuild⟩ := read_eq_ok_iff.mp h
  exact ⟨anchors, o, houtline, (functions_closed hbuild).2, content_closed hbuild⟩

end Description

end ShaderExpr
