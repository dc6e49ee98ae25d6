import ShaderExpr.Proofs.Description.Reading
import ShaderExpr.Proofs.Evaluator.Typing
import ShaderExpr.Proofs.Yaml.Alias

/-!
# Define steps binding by binding

A define step reads all of its expressions in the scope before it and then adds its bindings. Taken apart into steps of
one binding each, the same expressions are read in growing scopes, and each name is checked against the bindings before
it as they come. What was read before is read the same in a larger scope, so the two ways come to the same block
wherever both are open. They differ only for an expression that refers to a binding of its own step.

* **`pairSteps`** — the steps of one binding each.
* **`exists_readBindings_iff`** — when the bindings of a step can be read.
* **`defineStep_pair`** — one of the small steps, over a block that has grown.
* **`foldlM_pairSteps_eq_ok_iff`** — all of them, one after the other.
* **`opened_of_foldlM_pairSteps`** — why the block that they lead to has a table.
* **`defineStep_iff_pairSteps`** — the whole step and the small ones.
-/

namespace ShaderExpr

/-- The define steps of one binding each, in order. -/
def pairSteps (line : Nat) : List Yaml.Node → List Yaml.Node
  | name :: value :: rest => .mapping line [name, value] :: pairSteps line rest
  | _ => []

/-- The bindings of a step can be read iff each of its expressions can. -/
theorem Vocabulary.exists_readBindings_iff {v : Vocabulary} {content : List Yaml.Node} :
    (∃ bindings, v.readBindings content = .ok bindings) ↔
      content.length % 2 = 0 ∧ ∀ value ∈ Yaml.Node.values content, ∃ e, v.read value = .ok e := by
  fun_induction readBindings v content with
  | case1 => simp [Yaml.Node.values]
  | case2 => simp
  | case3 name value rest ih =>
      -- two nodes make a pair, so what is left over stays the same
      have hlength : (name :: value :: rest).length % 2 = rest.length % 2 := by
        simp only [List.length_cons]
        omega
      rw [Yaml.Node.values, List.forall_mem_cons, hlength, and_left_comm, ← ih]
      constructor
      · rintro ⟨_, h⟩
        obtain ⟨e, he, hrest⟩ := bind_eq_ok_iff.mp h
        obtain ⟨bds, hbds, _⟩ := bind_eq_ok_iff.mp hrest
        exact ⟨⟨e, Outcome.inside_eq_ok_iff.mp he⟩, bds, hbds⟩
      · rintro ⟨⟨e, he⟩, bds, hbds⟩
        refine ⟨⟨name.text, some e⟩ :: bds, bind_eq_ok_iff.mpr ⟨e, Outcome.inside_eq_ok_iff.mpr he, ?_⟩⟩
        exact bind_eq_ok_iff.mpr ⟨bds, hbds, rfl⟩

/-- A name that was free takes nothing away. -/
theorem Scope.Extends.bind {s s' : Scope} (h : s'.Extends s) {name : String} (hfresh : s'.get? name = none)
    (t : Shape) : (s'.bind name t).Extends s := by
  intro key e hget
  have hne : name ≠ key := by
    rintro rfl
    rw [h _ e hget] at hfresh
    cases hfresh
  rw [get?_bind, if_neg hne, h key e hget]

namespace Block

variable {b b' : Block} {anchors : Yaml.Anchors} {functions : Table Function} {s : Scope}

/-- Whether there is a table already makes no difference to a binding. -/
theorem addBinding_opened_eq_ok_iff {bd : Binding} {i : Nat} :
    b.opened.addBinding i bd = .ok b' ↔ b.addBinding i bd = .ok b' := by
  rw [addBinding_eq_ok_iff, addBinding_eq_ok_iff]
  show _ ∧ b.scope.opened.get? _ = none ∧ _ ↔ _
  rw [Scope.get?_opened]
  rfl

/-- A step of one binding, whose expression was read in a smaller scope, adds the same binding. -/
theorem defineStep_pair (hs : b.scope.Extends s) {name value : Yaml.Node} {e : Expr}
    (hread : Vocabulary.read ⟨anchors, functions, s⟩ value = .ok e) (line : Nat) :
    b.defineStep anchors functions (.mapping line [name, value]) = .ok b' ↔
      b.opened.addBinding 0 ⟨name.text, some e⟩ = .ok b' := by
  have hbindings : Vocabulary.readBindings ⟨anchors, functions, b.scope⟩ [name, value] =
      .ok [⟨name.text, some e⟩] := by
    rw [Vocabulary.readBindings, Vocabulary.read_extend hs hread]
    rfl
  rw [defineStep_of_readBindings hbindings, addBindings]
  show Outcome.ofError (b.opened.addBinding 0 ⟨name.text, some e⟩ >>= pure) = .ok b' ↔ _
  rw [bind_pure]
  exact mapError_eq_ok_iff

/-- The index of a binding only matters for its errors. -/
theorem addBinding_eq_ok_congr {bd : Binding} (i j : Nat) :
    b.addBinding i bd = .ok b' ↔ b.addBinding j bd = .ok b' := by
  rw [addBinding_eq_ok_iff, addBinding_eq_ok_iff]

/-- **Small steps add what was read before the first of them.** Induction on the bindings: the scope only grows from
the one that the expressions were read in. A block that is extended has a table from then on; only if there is no
binding at all may the table be missing, which the whole step makes all the same. -/
theorem foldlM_pairSteps_eq_ok_iff (hs : b.scope.Extends s) {content : List Yaml.Node}
    {bindings : List Binding}
    (hread : Vocabulary.readBindings ⟨anchors, functions, s⟩ content = .ok bindings) (line index : Nat) :
    (∃ b₁, (pairSteps line content).foldlM (fun b step => b.defineStep anchors functions step) b = .ok b₁ ∧
        b₁.opened = b') ↔
      b.opened.addBindings index bindings = .ok b' := by
  generalize hv : (⟨anchors, functions, s⟩ : Vocabulary) = v at hread
  fun_induction Vocabulary.readBindings v content generalizing b bindings index with
  | case1 =>
      cases hread
      simp [pairSteps, addBindings, pure, Except.pure]
  | case2 => cases hread
  | case3 name value rest ih =>
      obtain ⟨e, he, hrest⟩ := bind_eq_ok_iff.mp hread
      obtain ⟨bds, hbds, heq⟩ := bind_eq_ok_iff.mp hrest
      cases heq
      rw [Outcome.inside_eq_ok_iff, ← hv] at he
      -- what comes of the rest, over the block with the first binding
      have hrest : ∀ b₂, b.opened.addBinding 0 ⟨name.text, some e⟩ = .ok b₂ →
          ((∃ b₁, (pairSteps line rest).foldlM (fun b step => b.defineStep anchors functions step) b₂ = .ok b₁ ∧
            b₁.opened = b') ↔ b₂.addBindings (index + 1) bds = .ok b') := by
        intro b₂ hadd
        obtain ⟨_, hfresh, e', _, _, rfl⟩ := addBinding_eq_ok_iff.mp (addBinding_opened_eq_ok_iff.mp hadd)
        exact ih (hs.bind hfresh e'.shape) (index + 1) hbds
      rw [pairSteps, List.foldlM_cons, addBindings, bind_eq_ok_iff]
      simp only [bind_eq_ok_iff, defineStep_pair hs he]
      constructor
      · rintro ⟨b₁, ⟨b₂, hadd, hfold⟩, hopened⟩
        exact ⟨b₂, (addBinding_eq_ok_congr 0 index).mp hadd, (hrest b₂ hadd).mp ⟨b₁, hfold, hopened⟩⟩
      · rintro ⟨b₂, hadd, hadds⟩
        have hadd := (addBinding_eq_ok_congr index 0).mp hadd
        obtain ⟨b₁, hfold, hopened⟩ := (hrest b₂ hadd).mpr hadds
        exact ⟨b₁, ⟨b₂, hadd, hfold⟩, hopened⟩

/-- Where there are bindings, the small steps leave a table. -/
theorem opened_of_foldlM_pairSteps {content : List Yaml.Node} (heven : content.length % 2 = 0)
    (hcontent : content ≠ []) {line : Nat}
    (h : (pairSteps line content).foldlM (fun b step => b.defineStep anchors functions step) b = .ok b') :
    b'.opened = b' := by
  match content, hcontent, heven with
  | name :: value :: rest, _, _ =>
      rw [pairSteps, List.foldlM_cons] at h
      obtain ⟨b₁, hfirst, hrest⟩ := bind_eq_ok_iff.mp h
      exact foldlM_induction (P := fun b => b.opened = b)
        (fun _ _ _ _ _ hstep => opened_of_defineStep hstep) (opened_of_defineStep hfirst) hrest

/-- The whole step and the small ones come to the same block, but for the table that the whole step makes even
if there is nothing to bind. -/
theorem defineStep_eq_ok_iff_pairSteps {content : List Yaml.Node} (line line' : Nat) :
    b.defineStep anchors functions (.mapping line content) = .ok b' ↔
      (content.length % 2 = 0 ∧
        ∀ value ∈ Yaml.Node.values content,
          ∃ e, Vocabulary.read ⟨anchors, functions, b.scope⟩ value = .ok e) ∧
      ∃ b₁, (pairSteps line' content).foldlM (fun b step => b.defineStep anchors functions step) b = .ok b₁ ∧
        b₁.opened = b' := by
  have hself : b.scope.Extends b.scope := fun _ _ h => h
  rw [← Vocabulary.exists_readBindings_iff, defineStep_eq_ok_iff]
  constructor
  · rintro ⟨_, _, bindings, heq, hread, hadd⟩
    cases heq
    -- steps of one pair each read their values in a scope that has grown, and read the same
    exact ⟨⟨bindings, hread⟩, (foldlM_pairSteps_eq_ok_iff hself hread line' 0).mpr hadd⟩
  · rintro ⟨⟨bindings, hread⟩, hfold⟩
    exact ⟨line, content, bindings, rfl, hread, (foldlM_pairSteps_eq_ok_iff hself hread line' 0).mp hfold⟩

/-- **A define step equals its bindings defined one by one.** Take any block, functions and mapping that binds
something. The mapping as one step extends the block to another iff all of its expressions can be read in the scope
before it and the steps of one binding each, in order, extend the block to the same. So wherever the whole step
succeeds, the small steps do, and inputs, declarations, and the names in scope with their order and shapes are the
same in the end. A mapping without bindings always succeeds and adds nothing: all that it does to the block is to
give it a table, if it had none. -/
theorem defineStep_iff_pairSteps (b b' : Block) (anchors : Yaml.Anchors) (functions : Table Function)
    (content : List Yaml.Node) (line line' : Nat) :
    (content ≠ [] →
      (b.defineStep anchors functions (.mapping line content) = .ok b' ↔
        (content.length % 2 = 0 ∧
          ∀ value ∈ Yaml.Node.values content,
            ∃ e, Vocabulary.read ⟨anchors, functions, b.scope⟩ value = .ok e) ∧
        (pairSteps line' content).foldlM (fun b step => b.defineStep anchors functions step) b = .ok b')) ∧
      b.defineStep anchors functions (.mapping line []) = .ok b.opened := by
  constructor
  · intro hcontent
    rw [defineStep_eq_ok_iff_pairSteps line line']
    refine and_congr_right fun hreads => ⟨?_, fun hfold => ?_⟩
    · rintro ⟨b₁, hfold, rfl⟩
      rwa [opened_of_foldlM_pairSteps hreads.1 hcontent hfold]
    · exact ⟨b', hfold, opened_of_foldlM_pairSteps hreads.1 hcontent hfold⟩
  · exact (defineStep_eq_ok_iff_pairSteps line line').mpr ⟨⟨rfl, nofun⟩, b, rfl, rfl⟩

/-- The content of a step that binds the sine of `x`, and the cosine of a name. -/
def waveContent (name : String) : List Yaml.Node :=
  [.scalar 1 .str "p", .mapping 1 [.scalar 1 .str "sin", .scalar 1 .str "x"],
    .scalar 1 .str "q", .mapping 1 [.scalar 1 .str "cos", .scalar 1 .str name]]

/-- As one step, the cosine may be of `x` and not of `p`; one by one it may be of both. -/
theorem defineStep_iff_pairSteps_waveContent :
    (∃ b', (empty.withInput "x" .float).defineStep #[] .empty (.mapping 1 (waveContent "x")) = .ok b' ∧
      (pairSteps 1 (waveContent "x")).foldlM (fun b step => b.defineStep #[] .empty step)
        (empty.withInput "x" .float) = .ok b' ∧ b'.scope.names = ["x", "p", "q"]) ∧
    ∃ b', (pairSteps 1 (waveContent "p")).foldlM (fun b step => b.defineStep #[] .empty step)
        (empty.withInput "x" .float) = .ok b' ∧
      (empty.withInput "x" .float).defineStep #[] .empty (.mapping 1 (waveContent "p")) ≠ .ok b' := by
  refine ⟨⟨_, rfl, ?_, rfl⟩, _, rfl, fun h => ?_⟩
  · exact (((defineStep_iff_pairSteps _ _ _ _ (waveContent "x") 1 1).1 nofun).mp rfl).2
  · obtain ⟨⟨_, hread⟩, _⟩ := ((defineStep_iff_pairSteps _ _ _ _ (waveContent "p") 1 1).1 nofun).mp h
    obtain ⟨_, he⟩ := hread (.mapping 1 [.scalar 1 .str "cos", .scalar 1 .str "p"])
      (List.mem_cons_of_mem _ List.mem_cons_self)
    cases he

end Block

end ShaderExpr
