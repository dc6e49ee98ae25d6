import Mathlib.Data.List.Forall2
import ShaderExpr.Description.Expression
import ShaderExpr.Proofs.Block.Extension

/-!
# What reading an expression makes

A node of a document denotes an expression through one recursion over the node, with aliases followed to
the nodes that they refer to. All that a proof needs of it is said here once: what a successful reading
is made of, and that it stays the same when more names are in scope.

* **`mapping_eq_ok_iff`** — when a mapping denotes an expression.
* **`readAt_induction`** — induction over a successful reading, with one case for each kind of node that
  denotes something.
* **`Made`** — the expressions that can be made from literals, names in scope and heads on operands.
* **`made_of_read`** — what is read is made so.
* **`read_extend`** — what is read is read the same with more names in scope.
* **`Block.defineStep_eq_ok_iff`** — when a define step of a description extends a block.
* **`Block.Consistent.defineStep_insertInput`** — what it does to the block with one more input.
-/

namespace ShaderExpr

namespace Vocabulary

variable {v : Vocabulary}

/-! ## Mappings -/

/-- The literal that a shape and its components make. -/
def literal? : Head → List Yaml.Node → Option Expr
  | .shape s, nodes => (components? s nodes).map (Expr.literalOf s)
  | _, _ => none

/-- Components are only taken if there are as many as the shape has. -/
theorem length_of_components? {s : Shape} {nodes : List Yaml.Node} {comps : List Binary32}
    (h : components? s nodes = some comps) : comps.length = s.arity := by
  unfold components? at h
  split at h
  · split at h
    · next hlength =>
        cases h
        exact hlength
    · cases h
  · cases h

/-- Only a shape makes a literal, and it has all its components. -/
theorem literal?_eq_some {head : Head} {nodes : List Yaml.Node} {e : Expr}
    (h : literal? head nodes = some e) :
    ∃ (s : Shape) (comps : List Binary32), comps.length = s.arity ∧ e = .literalOf s comps := by
  cases head with
  | operation op => cases h
  | function fn => cases h
  | shape s =>
      obtain ⟨comps, hcomps, rfl⟩ := Option.map_eq_some_iff.mp h
      exact ⟨s, comps, length_of_components? hcomps, rfl⟩

/-- An operation takes the first operand as its receiver and the others as its arguments. -/
theorem applyHead_operation_eq_ok_iff {op : Operation} {es : List Expr} {e : Expr} :
    applyHead (.operation op) es = .ok e ↔
      ∃ recv args, es = recv :: args ∧ Expr.apply op.code (some recv) (args.map some) = .ok e := by
  cases es with
  | nil => exact ⟨nofun, nofun⟩
  | cons recv args =>
      unfold applyHead Outcome.ofError
      simp only [mapError_eq_ok_iff, List.cons.injEq]
      exact ⟨fun h => ⟨recv, args, ⟨rfl, rfl⟩, h⟩, by rintro ⟨_, _, ⟨rfl, rfl⟩, h⟩; exact h⟩

/-- Operands of a shape are combined; since none is absent, the only thing to go wrong is their
number. -/
theorem applyHead_shape (s : Shape) (es : List Expr) :
    applyHead (.shape s) es = Outcome.ofError ((Combiner.ofList es).toShape s) := by
  unfold applyHead
  rw [Combiner.ofOptions_map_some]
  rfl

/-- Only an operation without any operand is at fault, and a mapping without operands is refused
before. -/
theorem faultless_applyHead {es : List Expr} (hes : es ≠ []) (head : Head) :
    Outcome.Faultless (applyHead head es) := by
  cases head with
  | operation op =>
      obtain ⟨recv, args, rfl⟩ := List.exists_cons_of_ne_nil hes
      exact Outcome.faultless_ofError _
  | shape s =>
      rw [applyHead_shape]
      exact Outcome.faultless_ofError _
  | function fn => exact Outcome.faultless_ofError _

theorem applied_eq_ok_iff {head : Head} {operands : Outcome (List Expr)} {line : Nat} {e : Expr} :
    (operands >>= fun es => Outcome.inside (.line line) (applyHead head es)) = .ok e ↔
      ∃ es, operands = .ok es ∧ applyHead head es = .ok e := by
  rw [bind_eq_ok_iff]
  exact exists_congr fun es => and_congr_right fun _ => Outcome.inside_eq_ok_iff

/-- A mapping denotes an expression iff its key stands for something and there are operands, which
make a literal, or else what the key stands for can be applied to what they denote. A literal comes
first: numbers that are as many as the components are not read as expressions. -/
theorem mapping_eq_ok_iff {key : Yaml.Node} {nodes : List Yaml.Node} {operands : Outcome (List Expr)}
    {e : Expr} :
    v.mapping key nodes operands = .ok e ↔
      nodes ≠ [] ∧ ∃ head, v.head? key.text = some head ∧
        (literal? head nodes = some e ∨
          literal? head nodes = none ∧ ∃ es, operands = .ok es ∧ applyHead head es = .ok e) := by
  unfold mapping
  cases nodes with
  | nil => exact ⟨nofun, fun h => absurd rfl h.1⟩
  | cons n ns =>
      simp only [List.isEmpty_cons, Bool.false_eq_true, if_false, ne_eq, reduceCtorEq,
        not_false_eq_true, true_and]
      cases v.head? key.text with
      | none => exact ⟨nofun, fun ⟨_, h, _⟩ => nomatch h⟩
      | some head =>
          simp only [Option.some.injEq, exists_eq_left']
          cases head with
          | operation op => simpa [literal?] using applied_eq_ok_iff
          | function fn => simpa [literal?] using applied_eq_ok_iff
          | shape s =>
              -- only a shape may have a literal for its operands
              cases hcomps : components? s (n :: ns) with
              | none => simpa [literal?, hcomps] using applied_eq_ok_iff
              | some comps =>
                  simp [literal?, hcomps, Expr.literal_code (length_of_components? hcomps)]

/-! ## Induction over a reading -/

/-- The operands that stand after the key of a mapping: the entries of a sequence, or the one node. -/
def operandNodes : Yaml.Node → List Yaml.Node
  | .sequence _ nodes => nodes
  | value => [value]

theorem operandNodes_of_ne_sequence {value : Yaml.Node}
    (h : ∀ line nodes, value = .sequence line nodes → False) : operandNodes value = [value] := by
  unfold operandNodes
  split
  · exact absurd rfl (h _ _)
  · rfl

/-- A mapping of one key has the entries of a sequence as operands, or its value as the only one.
The two equations of the definition become one. -/
theorem readAt_mapping (follow : Option Nat → Outcome Expr) (line : Nat) (key value : Yaml.Node) :
    v.readAt follow (.mapping line [key, value]) =
      v.mapping key (operandNodes value) (v.readAllAt follow (operandNodes value)) := by
  cases value with
  | sequence l nodes => rw [readAt, operandNodes]
  | _ =>
      rw [readAt, operandNodes, readAllAt, readAllAt]
      · rfl
      all_goals nofun

/-- A mapping with none or with several keys denotes nothing. -/
theorem readAt_manyKeys (follow : Option Nat → Outcome Expr) (line : Nat) {content : List Yaml.Node}
    (h : content.length ≠ 2) :
    v.readAt follow (.mapping line content) =
      .error (.error (.within (.line line) (.cause .manyKeys))) := by
  rw [readAt]
  · rintro key line' nodes rfl
    exact h rfl
  · rintro key value rfl
    exact h rfl

/-- Induction over the nodes that expressions are read from. Only a mapping of one key has operands,
so this has fewer cases than the induction that comes with the definition. -/
@[elab_as_elim]
theorem node_induction {P : Yaml.Node → Prop} (scalar : ∀ line tag text, P (.scalar line tag text))
    (reference : ∀ line name target, P (.alias line name target))
    (pair : ∀ line key value, (∀ n ∈ operandNodes value, P n) → P (.mapping line [key, value]))
    (manyKeys : ∀ line content, content.length ≠ 2 → P (.mapping line content))
    (sequence : ∀ line content, P (.sequence line content))
    (document : ∀ line content, P (.document line content)) (absent : ∀ line, P (.absent line))
    (n : Yaml.Node) : P n := by
  refine readAt.induct P (fun ns => ∀ n ∈ ns, P n) reference scalar ?_ ?_ ?_ sequence document absent
    nofun ?_ n
  · intro line key line' nodes ih
    exact pair line key (.sequence line' nodes) ih
  · intro line key value hvalue ih
    refine pair line key value ?_
    -- the only operand is the value
    rw [operandNodes_of_ne_sequence hvalue]
    simpa using ih
  · intro line content _ hpair
    refine manyKeys line content fun hlength => ?_
    obtain ⟨key, value, rfl⟩ := List.length_eq_two.mp hlength
    exact hpair key value rfl
  · intro n ns hn hns
    exact List.forall_mem_cons.mpr ⟨hn, hns⟩

/-- Nodes denote expressions iff each of them denotes the one in its place. -/
theorem readAllAt_eq_ok_iff {follow : Option Nat → Outcome Expr} {ns : List Yaml.Node}
    {es : List Expr} :
    v.readAllAt follow ns = .ok es ↔ List.Forall₂ (fun n e => v.readAt follow n = .ok e) ns es := by
  induction ns generalizing es with
  | nil =>
      rw [readAllAt, List.forall₂_nil_left_iff, Except.ok.injEq]
      exact eq_comm
  | cons n ns ih =>
      rw [readAllAt, bind_eq_ok_iff]
      constructor
      · rintro ⟨e, he, hrest⟩
        obtain ⟨rest, hns, hes⟩ := bind_eq_ok_iff.mp hrest
        cases hes
        exact .cons he (ih.mp hns)
      · intro h
        cases h with
        | cons he hns => exact ⟨_, he, bind_eq_ok_iff.mpr ⟨_, ih.mpr hns, rfl⟩⟩

/-- There are as many operands as nodes. A mapping whose list of operands is empty is refused before
they are read, so an operation is never applied to none. -/
theorem length_of_readAllAt {follow : Option Nat → Outcome Expr} {ns : List Yaml.Node} {es : List Expr}
    (h : v.readAllAt follow ns = .ok es) : es.length = ns.length :=
  (readAllAt_eq_ok_iff.mp h).length_eq.symm

/-- Induction over a successful reading: an alias denotes what it leads to, a scalar what its text
says, and a mapping what its key and operands make. No other node denotes anything. What aliases
denote is a parameter, so that proofs can go by the depth to which they are followed. -/
theorem readAt_induction {follow : Option Nat → Outcome Expr} {P : Yaml.Node → Expr → Prop}
    (halias : ∀ line name target e, follow target = .ok e → P (.alias line name target) e)
    (hscalar : ∀ line tag text e, v.scalar line tag text = .ok e → P (.scalar line tag text) e)
    (hmapping : ∀ line key value e,
      (∀ es, v.readAllAt follow (operandNodes value) = .ok es →
        List.Forall₂ P (operandNodes value) es) →
      v.mapping key (operandNodes value) (v.readAllAt follow (operandNodes value)) = .ok e →
        P (.mapping line [key, value]) e)
    {n : Yaml.Node} {e : Expr} (h : v.readAt follow n = .ok e) : P n e := by
  refine readAt.induct (fun n => ∀ e, v.readAt follow n = .ok e → P n e)
    (fun ns => ∀ es, v.readAllAt follow ns = .ok es → List.Forall₂ P ns es)
    ?_ ?_ ?_ ?_ ?_ ?_ ?_ ?_ ?_ ?_ n e h
  · intro line name target e h
    rw [readAt] at h
    exact halias line name target e h
  · intro line tag text e h
    rw [readAt] at h
    exact hscalar line tag text e (mapError_eq_ok_iff.mp h)
  -- a mapping of one key, with operands in a sequence or with one operand
  · intro line key line' nodes ih e h
    rw [readAt_mapping] at h
    exact hmapping line key (.sequence line' nodes) e ih h
  · intro line key value hvalue ih e h
    rw [readAt_mapping] at h
    refine hmapping line key value e ?_ h
    rw [operandNodes_of_ne_sequence hvalue]
    intro es hes
    cases readAllAt_eq_ok_iff.mp hes with
    | cons he hnil =>
        cases hnil
        exact .cons (ih _ he) .nil
  -- nodes that denote nothing
  · intro line content hsequence hpair e h
    rw [readAt] at h
    · cases h
    · exact hsequence
    · exact hpair
  · intro line content e h
    rw [readAt] at h
    cases h
  · intro line content e h
    rw [readAt] at h
    cases h
  · intro line e h
    rw [readAt] at h
    cases h
  -- lists of nodes
  · intro es h
    rw [readAllAt] at h
    cases h
    exact .nil
  · intro n ns ihn ihns es h
    cases readAllAt_eq_ok_iff.mp h with
    | cons he hns => exact .cons (ihn _ he) (ihns _ (readAllAt_eq_ok_iff.mpr hns))

/-! ## What is made -/

/-- The expressions that can be made from literals, from names in scope, and by applying what a key
stands for to such expressions. -/
inductive Made (v : Vocabulary) : Expr → Prop where
  | literal {s : Shape} {comps : List Binary32} (h : comps.length = s.arity) :
      Made v (.literalOf s comps)
  | name {name : String} {e : Expr} (h : v.scope.get? name = some e) : Made v e
  | apply {key : String} {head : Head} {es : List Expr} {e : Expr} (hes : ∀ x ∈ es, Made v x)
      (hhead : v.head? key = some head) (h : applyHead head es = .ok e) : Made v e

/-- A scalar is a number or a name in scope. -/
theorem made_of_scalar {line : Nat} {tag : Yaml.Tag} {text : String} {e : Expr}
    (h : v.scalar line tag text = .ok e) : v.Made e := by
  unfold scalar at h
  split at h
  · split at h
    · cases h
      exact .literal rfl
    · cases h
  · split at h
    · next hget =>
        cases h
        exact .name hget
    · cases h

theorem forall_made_of_forall₂ {ns : List Yaml.Node} {es : List Expr}
    (h : List.Forall₂ (fun _ e => v.Made e) ns es) : ∀ x ∈ es, v.Made x := by
  induction h with
  | nil => exact nofun
  | cons he _ ih => exact List.forall_mem_cons.mpr ⟨he, ih⟩

/-- What a node denotes is made, if what aliases denote is. -/
theorem made_of_readAt {follow : Option Nat → Outcome Expr}
    (hfollow : ∀ target e, follow target = .ok e → v.Made e) {n : Yaml.Node} {e : Expr}
    (h : v.readAt follow n = .ok e) : v.Made e := by
  refine readAt_induction (P := fun _ e => v.Made e) ?_ ?_ ?_ h
  · intro _ _ target e h
    exact hfollow target e h
  · intro _ _ _ e h
    exact made_of_scalar h
  · intro _ key value e ih h
    obtain ⟨_, head, hhead, hliteral | ⟨_, es, hes, happly⟩⟩ := mapping_eq_ok_iff.mp h
    · -- the operands are a literal
      obtain ⟨s, comps, hlength, rfl⟩ := literal?_eq_some hliteral
      exact .literal hlength
    · exact .apply (forall_made_of_forall₂ (ih es hes)) hhead happly

/-- What an alias denotes is made. Induction on the depth to which aliases are followed. -/
theorem made_of_follow {depth : Nat} {target : Option Nat} {e : Expr}
    (h : v.follow depth target = .ok e) : v.Made e := by
  induction depth generalizing target e with
  | zero =>
      unfold follow at h
      split at h <;> cases h
  | succ depth ih =>
      unfold follow at h
      split at h
      · exact made_of_readAt (fun _ _ h => ih h) h
      · cases h

/-- **Whatever is read is made** from literals, names in scope and heads on operands. -/
theorem made_of_read {n : Yaml.Node} {e : Expr} (h : v.read n = .ok e) : v.Made e :=
  made_of_readAt (fun _ _ h => made_of_follow h) h

/-! ## More names in scope -/

variable {s' : Scope}

/-- A number is a number in any scope, and a name that was found is found again. -/
theorem scalar_extend (hs : s'.Extends v.scope) {line : Nat} {tag : Yaml.Tag} {text : String}
    {e : Expr} (h : v.scalar line tag text = .ok e) :
    scalar { v with scope := s' } line tag text = .ok e := by
  unfold scalar at h ⊢
  split at h
  · next hnumber =>
      rw [if_pos hnumber]
      exact h
  · next hnumber =>
      rw [if_neg hnumber]
      split at h
      · next hget =>
          cases h
          rw [hs _ _ hget]
      · cases h

/-- What a node denotes it denotes with more names in scope, if so it is with aliases. No reference can
be captured: a name that was found is found again, and bound to the same. -/
theorem readAt_extend (hs : s'.Extends v.scope) {follow follow' : Option Nat → Outcome Expr}
    (hfollow : ∀ target e, follow target = .ok e → follow' target = .ok e) {n : Yaml.Node} {e : Expr}
    (h : v.readAt follow n = .ok e) : readAt { v with scope := s' } follow' n = .ok e := by
  refine readAt_induction (P := fun n e => readAt { v with scope := s' } follow' n = .ok e)
    ?_ ?_ ?_ h
  · intro _ _ target e h
    rw [readAt]
    exact hfollow target e h
  · intro _ _ _ e h
    rw [readAt, scalar_extend hs h]
    rfl
  · -- keys are not looked up in the scope
    intro _ key value e ih h
    rw [readAt_mapping, mapping_eq_ok_iff]
    obtain ⟨hnodes, head, hhead, hmade⟩ := mapping_eq_ok_iff.mp h
    refine ⟨hnodes, head, hhead, hmade.imp_right fun ⟨hliteral, es, hes, happly⟩ => ?_⟩
    exact ⟨hliteral, es, readAllAt_eq_ok_iff.mpr (ih es hes), happly⟩

/-- The same for aliases, by the depth to which they are followed. -/
theorem follow_extend (hs : s'.Extends v.scope) {depth : Nat} {target : Option Nat} {e : Expr}
    (h : v.follow depth target = .ok e) :
    follow { v with scope := s' } depth target = .ok e := by
  induction depth generalizing target e with
  | zero =>
      unfold follow at h
      split at h <;> cases h
  | succ depth ih =>
      unfold follow at h ⊢
      simp only at h ⊢
      split at h
      · exact readAt_extend hs (fun _ _ h => ih h) h
      · cases h

/-- **Whatever is read is read the same with more names in scope.** -/
theorem read_extend (hs : s'.Extends v.scope) {n : Yaml.Node} {e : Expr} (h : v.read n = .ok e) :
    read { v with scope := s' } n = .ok e :=
  readAt_extend hs (fun _ _ h => follow_extend hs h) h

/-! ## Define steps -/

/-- The names that a define step binds: the texts of its keys. -/
def boundNames : List Yaml.Node → List String
  | name :: _ :: rest => name.text :: boundNames rest
  | _ => []

/-- The bindings of a define step are named by its keys, and each of them is read from the node
beside its key. Keys and values alternate, and the recursion takes two at a time. -/
theorem readBindings_eq_ok {content : List Yaml.Node} {bindings : List Binding}
    (h : v.readBindings content = .ok bindings) :
    bindings.map Binding.name = boundNames content ∧
      ∀ bd ∈ bindings, ∃ n e, bd.value = some e ∧ v.read n = .ok e := by
  fun_induction readBindings v content generalizing bindings with
  | case1 =>
      cases h
      exact ⟨rfl, nofun⟩
  | case2 => cases h
  | case3 name value rest ih =>
      obtain ⟨e, he, hrest⟩ := bind_eq_ok_iff.mp h
      obtain ⟨bds, hbds, heq⟩ := bind_eq_ok_iff.mp hrest
      cases heq
      obtain ⟨hnames, hread⟩ := ih hbds
      refine ⟨by rw [List.map_cons, boundNames, hnames], List.forall_mem_cons.mpr ⟨?_, hread⟩⟩
      exact ⟨value, e, rfl, Outcome.inside_eq_ok_iff.mp he⟩

theorem readBindings_extend (hs : s'.Extends v.scope) {content : List Yaml.Node}
    {bindings : List Binding} (h : v.readBindings content = .ok bindings) :
    readBindings { v with scope := s' } content = .ok bindings := by
  fun_induction readBindings v content generalizing bindings with
  | case1 => exact h
  | case2 => cases h
  | case3 name value rest ih =>
      obtain ⟨e, he, hrest⟩ := bind_eq_ok_iff.mp h
      obtain ⟨bds, hbds, heq⟩ := bind_eq_ok_iff.mp hrest
      rw [readBindings, bind_eq_ok_iff]
      refine ⟨e, ?_, bind_eq_ok_iff.mpr ⟨bds, ih hbds, heq⟩⟩
      rw [Outcome.inside_eq_ok_iff] at he ⊢
      exact read_extend hs he

end Vocabulary

namespace Block

variable {b b' : Block}

/-- A define step whose bindings can be read adds them to the block with a table. -/
theorem defineStep_of_readBindings {anchors : Yaml.Anchors} {functions : Table Function}
    {content : List Yaml.Node} {bindings : List Binding}
    (hread : Vocabulary.readBindings ⟨anchors, functions, b.scope⟩ content = .ok bindings)
    (line : Nat) :
    b.defineStep anchors functions (.mapping line content) =
      Outcome.ofError (b.opened.addBindings 0 bindings) := by
  unfold defineStep attemptStep
  simp only [hread, define_eq]
  show Outcome.ofError (Attempt.ofResult b (b.opened.addBindings 0 bindings)).result = _
  rw [Attempt.result_ofResult]

/-- A define step extends a block iff it is a mapping whose bindings can be read in the scope of the
block and can then be added. -/
theorem defineStep_eq_ok_iff {anchors : Yaml.Anchors} {functions : Table Function}
    {step : Yaml.Node} :
    b.defineStep anchors functions step = .ok b' ↔
      ∃ line content bindings, step = .mapping line content ∧
        Vocabulary.readBindings ⟨anchors, functions, b.scope⟩ content = .ok bindings ∧
        b.opened.addBindings 0 bindings = .ok b' := by
  constructor
  · intro h
    -- what the step does after its bindings are read is said above, so only the branches before it
    -- are gone through
    have hstep := Attempt.outcome_eq_ok_iff.mp h
    unfold attemptStep at hstep
    split at hstep
    · next line content =>
        split at hstep
        · next bindings hread =>
            rw [defineStep_of_readBindings hread] at h
            exact ⟨line, content, bindings, rfl, hread, mapError_eq_ok_iff.mp h⟩
        · cases hstep
        · cases hstep
    · cases hstep
  · rintro ⟨line, content, bindings, rfl, hread, hadd⟩
    rw [defineStep_of_readBindings hread]
    exact mapError_eq_ok_iff.mpr hadd

theorem Consistent.defineStep (hb : b.Consistent) {anchors : Yaml.Anchors}
    {functions : Table Function} {step : Yaml.Node}
    (h : b.defineStep anchors functions step = .ok b') : b'.Consistent := by
  obtain ⟨_, _, _, _, _, hadd⟩ := defineStep_eq_ok_iff.mp h
  exact hb.opened.addBindings hadd

/-- A block that was extended has a table, even if nothing was added. -/
theorem opened_of_defineStep {anchors : Yaml.Anchors} {functions : Table Function} {step : Yaml.Node}
    (h : b.defineStep anchors functions step = .ok b') : b'.opened = b' := by
  obtain ⟨_, _, bindings, _, _, hadd⟩ := defineStep_eq_ok_iff.mp h
  exact addBindings_induction (P := fun b => b.opened = b) (fun _ _ _ _ _ _ _ _ _ => rfl) rfl hadd

/-- **A define step over one more input.** It adds what it adds without it, unless one of its
bindings has the name of the input. Its expressions are read in a larger scope, which changes none
of them. -/
theorem Consistent.defineStep_insertInput (hb : b.Consistent) {i : Input} (hname : i.name ≠ "")
    (hi : i.name ∉ b.scope.names) {anchors : Yaml.Anchors} {functions : Table Function}
    {step : Yaml.Node} (h : b.defineStep anchors functions step = .ok b') :
    (b.insertInput i).defineStep anchors functions step =
      if i.name ∈ b'.scope.names then Outcome.fail (.duplicateName i.name)
      else .ok (b'.insertInput i) := by
  obtain ⟨line, content, bindings, rfl, hread, hadd⟩ := defineStep_eq_ok_iff.mp h
  have hread' : Vocabulary.readBindings ⟨anchors, functions, (b.insertInput i).scope⟩ content =
      .ok bindings :=
    Vocabulary.readBindings_extend (hb.extends_insertInput hname hi) hread
  rw [defineStep_of_readBindings hread', ← insertInput_opened,
    hb.opened.addBindings_insertInput hname hi hadd]
  split
  · rfl
  · rfl

end Block

end ShaderExpr
