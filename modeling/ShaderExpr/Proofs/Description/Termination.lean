import ShaderExpr.Description
import ShaderExpr.Proofs.Description.Reading
import ShaderExpr.Proofs.Yaml.Alias

/-!
# When reading an expression comes to an end

Reading follows aliases, and nothing keeps an alias from standing inside the node that it refers to. A
node such as `&x {sin: *x}` has no reading at any depth. What decides is not whether there is a cycle of
aliases in the document but whether reading walks into one. Operands are read from the left and the first
error ends it, so a cycle behind an operand that denotes nothing does no harm.

* **`Enters`** — reading a node comes to an alias.
* **`exists_enters_of_fault`** — whatever fault reading ends in, it comes from an alias that it entered.
* **`Loops`** — reading a node enters an alias from which it comes to one that it is still inside of.
* **`circles_of_follow_eq_endless`** — a depth of as many aliases as there are anchored nodes is enough
  for every reading that ends.
* **`Loops.readAt_eq_endless`** — no depth is enough for a node that loops.
* **`read_settles_iff`** — the nodes of a document that denote something or are refused with an error are
  those that do not loop.
-/

namespace ShaderExpr

namespace Vocabulary

open Relation (ReflTransGen TransGen)

variable {v : Vocabulary} {follow follow' : Option Nat → Outcome Expr}

/-! ## Mappings and lists, where the operands do not denote anything -/

/-- Where the operands make no literal, the head is applied to what they denote, whatever this
is. -/
theorem mapping_of_literal?_eq_none {key : Yaml.Node} {nodes : List Yaml.Node} {head : Head}
    (hnodes : nodes ≠ []) (hhead : v.head? key.text = some head) (hliteral : literal? head nodes = none)
    (operands : Outcome (List Expr)) :
    v.mapping key nodes operands =
      (operands >>= fun es => Outcome.inside (.line key.line) (applyHead head es)) := by
  have hnonempty : nodes.isEmpty = false := by simpa using hnodes
  unfold mapping
  rw [hnonempty, hhead]
  cases head with
  | operation op => simp
  | function fn => simp
  | shape s =>
      -- the components were looked for and not found, so the constructor is applied
      have hcomps : components? s nodes = none := by simpa [literal?] using hliteral
      simp [hcomps]

/-- Either it does not matter what the operands of a mapping denote, or there are some and its head
is applied to what they denote. In the first case the mapping is refused at once or is a literal, so
there is no fault. -/
theorem mapping_cases (v : Vocabulary) (key : Yaml.Node) (nodes : List Yaml.Node) :
    (∃ x : Outcome Expr, x.Faultless ∧ ∀ operands, v.mapping key nodes operands = x) ∨
      nodes ≠ [] ∧ ∃ head, v.head? key.text = some head ∧ literal? head nodes = none ∧
        ∀ operands, v.mapping key nodes operands =
          (operands >>= fun es => Outcome.inside (.line key.line) (applyHead head es)) := by
  by_cases hnodes : nodes = []
  · -- no operands: refused
    left
    refine ⟨_, ?_, fun operands => by rw [mapping, hnodes]; rfl⟩
    exact Outcome.faultless_error _
  · have hnonempty : nodes.isEmpty = false := by simpa using hnodes
    cases hhead : v.head? key.text with
    | none =>
        -- a key that stands for nothing: refused
        left
        refine ⟨_, ?_, fun operands => by rw [mapping, hnonempty, hhead]; rfl⟩
        exact Outcome.faultless_error _
    | some head =>
        cases hliteral : literal? head nodes with
        | none =>
            exact .inr ⟨hnodes, head, rfl, hliteral, mapping_of_literal?_eq_none hnodes hhead hliteral⟩
        | some e =>
            left
            -- a literal, whatever the operands denote
            refine ⟨.ok e, Outcome.faultless_ok e, fun operands => ?_⟩
            exact mapping_eq_ok_iff.mpr ⟨hnodes, head, hhead, .inl hliteral⟩

/-- Applying a head to what some nodes denote is at fault iff they are: each of them denotes one operand, so
there is a first. -/
theorem applied_eq_fault_iff {head : Head} {nodes : List Yaml.Node} (hnodes : nodes ≠ []) {line : Nat}
    {f : Fault} :
    (v.readAllAt follow nodes >>= fun es => Outcome.inside (.line line) (applyHead head es)) =
        .error (.fault f) ↔
      v.readAllAt follow nodes = .error (.fault f) := by
  rw [bind_eq_fault_iff]
  refine ⟨fun h => h.resolve_right ?_, .inl⟩
  rintro ⟨es, hes, hfault⟩
  have hlength := length_of_readAllAt hes
  have hne : es ≠ [] := by
    rintro rfl
    exact hnodes (List.length_eq_zero_iff.mp hlength.symm)
  exact faultless_applyHead hne head f (Outcome.inside_eq_fault_iff.mp hfault)

/-- A list of nodes is at fault where its first node is that denotes nothing. Those before it denote
something, for otherwise reading had ended there. -/
theorem readAllAt_eq_fault {ns : List Yaml.Node} {f : Fault}
    (h : v.readAllAt follow ns = .error (.fault f)) :
    ∃ before n after, ns = before ++ n :: after ∧ (∀ m ∈ before, ∃ e, v.readAt follow m = .ok e) ∧
      v.readAt follow n = .error (.fault f) := by
  induction ns with
  | nil => cases h
  | cons n ns ih =>
      rw [readAllAt] at h
      -- the first node is at fault, or it is read and the fault comes later
      rcases bind_eq_fault_iff.mp h with hn | ⟨e, he, hrest⟩
      · exact ⟨[], n, ns, rfl, List.forall_mem_nil _, hn⟩
      · rcases bind_eq_fault_iff.mp hrest with hns | ⟨es, _, hpure⟩
        · obtain ⟨before, m, after, rfl, hbefore, hm⟩ := ih hns
          exact ⟨n :: before, m, after, rfl, List.forall_mem_cons.mpr ⟨⟨e, he⟩, hbefore⟩, hm⟩
        · cases hpure

/-- A list of nodes has no end where one of its nodes has none, if nothing else ends it before.
Nodes before it may have no end either. -/
theorem readAllAt_eq_endless {before after : List Yaml.Node} {n : Yaml.Node}
    (hbefore : ∀ m ∈ before,
      (∃ e, v.readAt follow m = .ok e) ∨ v.readAt follow m = .error (.fault .endless))
    (hn : v.readAt follow n = .error (.fault .endless)) :
    v.readAllAt follow (before ++ n :: after) = .error (.fault .endless) := by
  induction before with
  | nil => simp [readAllAt, hn, bind, Except.bind]
  | cons m before ih =>
      have hrest := ih fun m hm => hbefore m (List.mem_cons_of_mem _ hm)
      rcases hbefore m List.mem_cons_self with ⟨e, he⟩ | he
      · simp [readAllAt, he, hrest, bind, Except.bind]
      · simp [readAllAt, he, bind, Except.bind]

/-! ## Aliases that reading comes to -/

/-- Reading a node comes to an alias with a target. To be read, an operand must be needed, as it is not
for a literal, and all operands before it must denote something. -/
inductive Enters (v : Vocabulary) (follow : Option Nat → Outcome Expr) :
    Yaml.Node → Option Nat → Prop where
  | here {line : Nat} {name : String} {target : Option Nat} :
      Enters v follow (.alias line name target) target
  | operand {line : Nat} {key value : Yaml.Node} {head : Head} {before after : List Yaml.Node}
      {n : Yaml.Node} {target : Option Nat} (hhead : v.head? key.text = some head)
      (hliteral : literal? head (operandNodes value) = none)
      (hnodes : operandNodes value = before ++ n :: after)
      (hbefore : ∀ m ∈ before, ∃ e, v.readAt follow m = .ok e) (h : Enters v follow n target) :
      Enters v follow (.mapping line [key, value]) target

/-- An alias in an operand is an alias in the node after the key. -/
theorem mem_aliases_of_mem_operandNodes {value n : Yaml.Node} {t : Option Nat}
    (hn : n ∈ operandNodes value) (ht : t ∈ n.aliases) : t ∈ value.aliases := by
  unfold operandNodes at hn
  split at hn
  · exact Yaml.Node.mem_aliasesAll.mpr ⟨n, hn, ht⟩
  · rw [List.mem_singleton.mp hn] at ht
    exact ht

/-- Reading only comes to aliases that stand in the node. -/
theorem Enters.mem_aliases {n : Yaml.Node} {t : Option Nat} (h : v.Enters follow n t) :
    t ∈ n.aliases := by
  induction h with
  | here => exact List.mem_singleton_self _
  | @operand line key value head before after n t _ _ hnodes _ _ ih =>
      have hn : n ∈ operandNodes value := by simp [hnodes]
      have hvalue := mem_aliases_of_mem_operandNodes hn ih
      exact Yaml.Node.mem_aliasesOfValues.mpr ⟨value, List.mem_singleton_self _, hvalue⟩

/-- With more depth reading comes to the same aliases: the operands before them still denote
something. -/
theorem Enters.mono (hfollow : ∀ t e, follow t = .ok e → follow' t = .ok e) {n : Yaml.Node}
    {t : Option Nat} (h : v.Enters follow n t) : v.Enters follow' n t := by
  induction h with
  | here => exact .here
  | operand hhead hliteral hnodes hbefore _ ih =>
      refine .operand hhead hliteral hnodes (fun m hm => ?_) ih
      obtain ⟨e, he⟩ := hbefore m hm
      have hscope : v.scope.Extends v.scope := fun _ _ h => h
      exact ⟨e, readAt_extend hscope hfollow he⟩

/-- **Faults come from aliases.** A node that no fault was found for among the aliases that reading
comes to denotes something or is refused with an error. Induction on the node, following the operand
that is at fault. -/
theorem exists_enters_of_fault {n : Yaml.Node} {f : Fault}
    (h : v.readAt follow n = .error (.fault f)) :
    ∃ t, v.Enters follow n t ∧ follow t = .error (.fault f) := by
  induction n using node_induction with
  | reference line name target => exact ⟨target, .here, by rwa [readAt] at h⟩
  | scalar line tag text =>
      rw [readAt] at h
      exact absurd h Outcome.ofError_ne_fault
  | pair line key value ih =>
      rw [readAt_mapping] at h
      rcases v.mapping_cases key (operandNodes value) with ⟨x, hx, hmapping⟩ |
        ⟨hsome, head, hhead, hliteral, hmapping⟩
      · exact absurd (hmapping _ ▸ h) (hx f)
      · -- the head is not at fault, so one of the operands is, and all before it denote something
        rw [hmapping, applied_eq_fault_iff hsome] at h
        obtain ⟨before, n, after, hnodes, hbefore, hn⟩ := readAllAt_eq_fault h
        obtain ⟨t, ht, hfault⟩ := ih n (by simp [hnodes]) hn
        exact ⟨t, .operand hhead hliteral hnodes hbefore ht, hfault⟩
  | manyKeys line content hlength =>
      rw [readAt_manyKeys _ _ hlength] at h
      cases h
  | sequence => cases h
  | document => cases h
  | absent => cases h

/-! ## Depth

A reading that ends does so at any greater depth, and in the same way. -/

/-- The same for lists, as long as each node does the same: the first node that fails ends both. -/
theorem readAllAt_eq_of_ne_endless {ns : List Yaml.Node}
    (ih : ∀ n ∈ ns, v.readAt follow n ≠ .error (.fault .endless) →
      v.readAt follow' n = v.readAt follow n)
    (h : v.readAllAt follow ns ≠ .error (.fault .endless)) :
    v.readAllAt follow' ns = v.readAllAt follow ns := by
  induction ns with
  | nil => rfl
  | cons n ns ihns =>
      have hrest := ihns fun m hm => ih m (List.mem_cons_of_mem _ hm)
      have hn : v.readAt follow n ≠ .error (.fault .endless) := by
        intro hn
        exact h (by simp [readAllAt, hn, bind, Except.bind])
      rw [readAllAt, readAllAt, ih n List.mem_cons_self hn]
      cases he : v.readAt follow n with
      | error e => rfl
      | ok e =>
          -- the first node was read, so a fault of the rest would be one of all
          have hns : v.readAllAt follow ns ≠ .error (.fault .endless) := by
            intro hns
            exact h (by simp [readAllAt, he, hns, bind, Except.bind])
          rw [hrest hns]

/-- A node whose reading ends is read the same by any other way to follow aliases that agrees where
the first comes to an end. -/
theorem readAt_eq_of_ne_endless
    (hfollow : ∀ t, follow t ≠ .error (.fault .endless) → follow' t = follow t) {n : Yaml.Node}
    (h : v.readAt follow n ≠ .error (.fault .endless)) : v.readAt follow' n = v.readAt follow n := by
  induction n using node_induction with
  | reference line name target =>
      rw [readAt] at h
      rw [readAt, readAt]
      exact hfollow target h
  | scalar => rw [readAt, readAt]
  | pair line key value ih =>
      rw [readAt_mapping] at h
      rw [readAt_mapping, readAt_mapping]
      -- a mapping that reads no operands does not follow aliases at all
      rcases v.mapping_cases key (operandNodes value) with ⟨x, _, hmapping⟩ |
        ⟨hsome, head, _, _, hmapping⟩
      · rw [hmapping, hmapping]
      · rw [hmapping] at h
        rw [readAllAt_eq_of_ne_endless ih fun hall => h ((applied_eq_fault_iff hsome).mpr hall)]
  | manyKeys line content hlength => rw [readAt_manyKeys _ _ hlength, readAt_manyKeys _ _ hlength]
  | sequence => rw [readAt, readAt]
  | document => rw [readAt, readAt]
  | absent => rw [readAt, readAt]

/-- One more level of depth changes nothing about a reading that ends. Induction on the depth,
through the anchored node. -/
theorem follow_succ_eq {depth : Nat} {t : Option Nat}
    (h : v.follow depth t ≠ .error (.fault .endless)) : v.follow (depth + 1) t = v.follow depth t := by
  induction depth generalizing t with
  | zero =>
      unfold follow at h ⊢
      cases ht : t.bind (v.anchors[·]?) with
      | none => rfl
      -- without levels a node is not read, and that is the fault excluded
      | some n => simp [ht] at h
  | succ depth ih =>
      rw [follow] at h ⊢
      rw [follow]
      cases ht : t.bind (v.anchors[·]?) with
      | none => rfl
      | some n =>
          simp only [ht] at h ⊢
          exact readAt_eq_of_ne_endless (fun _ ht => ih ht) h

theorem follow_eq_of_le {depth depth' : Nat} (hle : depth ≤ depth') {t : Option Nat}
    (h : v.follow depth t ≠ .error (.fault .endless)) : v.follow depth' t = v.follow depth t := by
  induction hle with
  | refl => rfl
  | @step m _ ih =>
      have hm : v.follow m t ≠ .error (.fault .endless) := by rwa [ih]
      rw [follow_succ_eq hm, ih]

theorem follow_ok_of_le {depth depth' : Nat} (hle : depth ≤ depth') {t : Option Nat} {e : Expr}
    (h : v.follow depth t = .ok e) : v.follow depth' t = .ok e := by
  rw [follow_eq_of_le hle (by simp [h]), h]

/-- An alias that reading enters is the end of it at a depth at which the alias has no reading.
Operands before it may end it as well, but in no other way. Which aliases are entered is told at one
depth and used at another; the hypothesis is what connects the two. -/
theorem Enters.readAt_eq_endless
    (hfollow : ∀ t, follow' t ≠ .error (.fault .endless) → follow t = follow' t) {n : Yaml.Node}
    {t : Option Nat} (h : v.Enters follow n t) (ht : follow' t = .error (.fault .endless)) :
    v.readAt follow' n = .error (.fault .endless) := by
  induction h with
  | here => rwa [readAt]
  | @operand line key value head before after n t hhead hliteral hnodes hbefore _ ih =>
      have hnonempty : operandNodes value ≠ [] := by simp [hnodes]
      rw [readAt_mapping, mapping_of_literal?_eq_none hnonempty hhead hliteral, applied_eq_fault_iff hnonempty,
        hnodes]
      refine readAllAt_eq_endless (fun m hm => ?_) (ih ht)
      -- operands before it may have become endless too, which is as good
      by_cases hm' : v.readAt follow' m = .error (.fault .endless)
      · exact .inr hm'
      · obtain ⟨e, he⟩ := hbefore m hm
        exact .inl ⟨e, by rw [← readAt_eq_of_ne_endless hfollow hm', he]⟩

/-! ## Loops -/

/-- Reading the anchored node at the first index comes to an alias of the one at the second. -/
def Visits (v : Vocabulary) (i j : Nat) : Prop :=
  ∃ n, v.anchors[i]? = some n ∧ v.Enters (v.follow v.anchors.size) n (some j)

/-- From an index, reading comes to an anchored node inside of which it comes to that node again. -/
def Circles (v : Vocabulary) (i : Nat) : Prop := ∃ j, ReflTransGen v.Visits i j ∧ TransGen v.Visits j j

/-- Reading a node comes to an alias and from there to a node that it is still inside of. -/
def Loops (v : Vocabulary) (n : Yaml.Node) : Prop :=
  ∃ i, v.Enters (v.follow v.anchors.size) n (some i) ∧ v.Circles i

/-- Whoever circles goes on to another anchored node, from which it still circles. -/
theorem Circles.exists_visits {i : Nat} (h : v.Circles i) : ∃ j, v.Visits i j ∧ v.Circles j := by
  obtain ⟨k, hik, hkk⟩ := h
  rcases hik.cases_head with rfl | ⟨j, hij, hjk⟩
  · obtain ⟨j, hij, hji⟩ := TransGen.head'_iff.mp hkk
    exact ⟨j, hij, i, hji, hkk⟩
  · exact ⟨j, hij, k, hjk, hkk⟩

/-- Only an alias to an anchored node has no end; one that leads nowhere is a fault of another
kind. -/
theorem exists_of_follow_eq_endless {depth : Nat} {t : Option Nat}
    (h : v.follow depth t = .error (.fault .endless)) :
    ∃ i n, t = some i ∧ v.anchors[i]? = some n := by
  cases t with
  | none => cases depth <;> cases h
  | some i =>
      cases hi : v.anchors[i]? with
      | some n => exact ⟨i, n, rfl, hi⟩
      | none => cases depth <;> simp [follow, hi] at h

/-- **A depth of as many aliases as there are anchored nodes is exceeded in a circle only.** Each
level enters an alias that has no end one level below, and so many levels pass some node twice. -/
theorem circles_of_follow_eq_endless {i : Nat}
    (h : v.follow v.anchors.size (some i) = .error (.fault .endless)) : v.Circles i := by
  have hstart : v.anchors.size ≤ v.anchors.size ∧
      v.follow v.anchors.size (some i) = .error (.fault .endless) := ⟨le_rfl, h⟩
  refine exists_cycle_of_descent
    (P := fun d i => d ≤ v.anchors.size ∧ v.follow d (some i) = .error (.fault .endless))
    (List.range v.anchors.size) ?_ ?_ List.length_range.le hstart
  · rintro d i ⟨_, hi⟩
    obtain ⟨_, n, heq, hn⟩ := exists_of_follow_eq_endless hi
    cases heq
    -- all indices that are passed are those of anchored nodes
    exact List.mem_range.mpr (Array.getElem?_eq_some_iff.mp hn).1
  · rintro d i ⟨hd, hi⟩
    obtain ⟨_, n, heq, hn⟩ := exists_of_follow_eq_endless hi
    cases heq
    -- the level below: reading the node comes to an alias without an end there
    have hread : v.readAt (v.follow d) n = .error (.fault .endless) := by simpa [follow, hn] using hi
    obtain ⟨t, ht, hfault⟩ := exists_enters_of_fault hread
    obtain ⟨j, _, rfl, _⟩ := exists_of_follow_eq_endless hfault
    have hd' : d ≤ v.anchors.size := by omega
    exact ⟨j, ⟨n, hn, ht.mono fun _ _ => follow_ok_of_le hd'⟩, hd', hfault⟩

/-- What an alias denotes at a depth at which no circle has a reading is what it denotes at the
depth that `Visits` speaks of. Below that depth nothing changes any more; above it only a circle
could have had no end. -/
theorem follow_size_eq {depth : Nat}
    (hcircles : ∀ i, v.Circles i → v.follow depth (some i) = .error (.fault .endless)) {t : Option Nat}
    (h : v.follow depth t ≠ .error (.fault .endless)) :
    v.follow v.anchors.size t = v.follow depth t := by
  rcases le_total depth v.anchors.size with hle | hle
  · exact follow_eq_of_le hle h
  · have hsize : v.follow v.anchors.size t ≠ .error (.fault .endless) := by
      intro hendless
      obtain ⟨i, _, rfl, _⟩ := exists_of_follow_eq_endless hendless
      exact h (hcircles i (circles_of_follow_eq_endless hendless))
    exact (follow_eq_of_le hle hsize).symm

/-- An alias that circles has no reading at any depth. Induction on the depth: at each level it goes
on to an alias that circles. -/
theorem Circles.follow_eq_endless {i : Nat} (h : v.Circles i) (depth : Nat) :
    v.follow depth (some i) = .error (.fault .endless) := by
  induction depth generalizing i with
  | zero =>
      obtain ⟨j, ⟨n, hn, _⟩, _⟩ := h.exists_visits
      simp [follow, hn]
  | succ depth ih =>
      obtain ⟨j, ⟨n, hn, henters⟩, hj⟩ := h.exists_visits
      have hread : v.readAt (v.follow depth) n = .error (.fault .endless) :=
        henters.readAt_eq_endless (fun _ => follow_size_eq fun _ => ih) (ih hj)
      simpa [follow, hn] using hread

/-- A node that loops has no reading at any depth. -/
theorem Loops.readAt_eq_endless {n : Yaml.Node} (h : v.Loops n) (depth : Nat) :
    v.readAt (v.follow depth) n = .error (.fault .endless) := by
  obtain ⟨i, henters, hi⟩ := h
  exact henters.readAt_eq_endless (fun _ => follow_size_eq fun _ hj => hj.follow_eq_endless depth)
    (hi.follow_eq_endless depth)

/-- A reading without an end came to an alias without one, which circles. -/
theorem loops_of_read_eq_endless {n : Yaml.Node} (h : v.read n = .error (.fault .endless)) :
    v.Loops n := by
  obtain ⟨t, henters, hfault⟩ := exists_enters_of_fault h
  obtain ⟨i, _, rfl, _⟩ := exists_of_follow_eq_endless hfault
  exact ⟨i, henters, circles_of_follow_eq_endless hfault⟩

/-! ## Documents

In a document every alias refers to an anchored node, so that a circle is the only fault there can be. -/

/-- Where every alias refers to a node, following one can only be without an end. Induction on the
depth. -/
theorem follow_fault {n : Yaml.Node} (hr : v.anchors.Resolved n) {depth i : Nat}
    (hi : i < v.anchors.size) {f : Fault} (h : v.follow depth (some i) = .error (.fault f)) :
    f = .endless := by
  have hget : v.anchors[i]? = some v.anchors[i] := Array.getElem?_eq_getElem hi
  induction depth generalizing i with
  | zero =>
      simp only [follow, Option.bind_some, hget] at h
      cases h
      rfl
  | succ depth ih =>
      have hread : v.readAt (v.follow depth) v.anchors[i] = .error (.fault f) := by
        simpa [follow, hget] using h
      obtain ⟨t, henters, hfault⟩ := exists_enters_of_fault hread
      -- aliases of anchored nodes are resolved as well, so the induction goes on
      obtain ⟨j, hj, rfl⟩ := hr.anchored _ (Array.getElem_mem hi) t henters.mem_aliases
      exact ih hj hfault (Array.getElem?_eq_getElem hj)

theorem read_fault {n : Yaml.Node} (hr : v.anchors.Resolved n) {f : Fault}
    (h : v.read n = .error (.fault f)) : f = .endless := by
  obtain ⟨t, henters, hfault⟩ := exists_enters_of_fault h
  obtain ⟨i, hi, rfl⟩ := hr.own t henters.mem_aliases
  exact follow_fault hr hi hfault

/-- Reading goes from node to node only along aliases. -/
theorem Visits.leads {i j : Nat} (h : v.Visits i j) : v.anchors.Leads i j := by
  obtain ⟨n, hn, henters⟩ := h
  exact ⟨n, hn, henters.mem_aliases⟩

/-- Where aliases have no cycle, reading has no circle. The other way round does not hold: reading
may stop before it comes to the cycle. -/
theorem not_loops_of_acyclic {n : Yaml.Node} (hc : v.anchors.Acyclic n) : ¬ v.Loops n := by
  rintro ⟨i, henters, j, hij, hjj⟩
  refine hc i j henters.mem_aliases ?_ ?_
  · exact ReflTransGen.mono (fun _ _ => Visits.leads) _ _ hij
  · exact TransGen.mono (fun _ _ => Visits.leads) _ _ hjj

/-- A node of a document whose aliases lead to no cycle is read without a fault. -/
theorem read_faultless {n : Yaml.Node} (hr : v.anchors.Resolved n) (hc : v.anchors.Acyclic n) :
    (v.read n).Faultless := by
  intro f h
  cases read_fault hr h
  exact not_loops_of_acyclic hc (loops_of_read_eq_endless h)

/-- **Reading ends unless it loops.** A node of a document denotes an expression or is refused with an
error exactly if reading it enters no alias from which it comes to a node that it is still inside of; where
it does, there is no depth at which reading ends. -/
theorem read_settles_iff {n : Yaml.Node} (hr : v.anchors.Resolved n) :
    (((∃ e, v.read n = .ok e) ∨ ∃ err, v.read n = .error (.error err)) ↔ ¬ v.Loops n) ∧
      (v.Loops n → ∀ depth, v.readAt (v.follow depth) n = .error (.fault .endless)) := by
  refine ⟨⟨?_, fun hloops => ?_⟩, fun hloops => hloops.readAt_eq_endless⟩
  · intro hsettles hloops
    have hendless : v.read n = .error (.fault .endless) := hloops.readAt_eq_endless _
    simp [hendless] at hsettles
  · cases hread : v.read n with
    | ok e => exact .inl ⟨e, rfl⟩
    | error failure =>
        cases failure with
        | error err => exact .inr ⟨err, rfl⟩
        | fault f =>
            -- in a document the only fault is to have no end
            cases read_fault hr hread
            exact absurd (loops_of_read_eq_endless hread) hloops

/-- The node of `&x {sin: *x}`, which is the only anchored node of `selfVocabulary`. -/
def selfSine : Yaml.Node := .mapping 1 [.scalar 1 .str "sin", .alias 1 "x" (some 0)]

def selfVocabulary : Vocabulary := ⟨#[selfSine], .empty, .empty⟩

/-- The node of `{add: [a, *x]}`. -/
def behindUnknown : Yaml.Node :=
  .mapping 1 [.scalar 1 .str "add", .sequence 1 [.scalar 1 .str "a", .alias 1 "x" (some 0)]]

/-- The only anchored node refers to itself. -/
theorem resolved_selfVocabulary {n : Yaml.Node} (h : n.aliases = [some 0]) :
    selfVocabulary.anchors.Resolved n where
  own t ht := ⟨0, by decide, by simpa [h] using ht⟩
  anchored m hm t ht := by
    have hm : m = selfSine := by simpa [selfVocabulary] using hm
    subst hm
    exact ⟨0, by decide, by simpa [selfSine, Yaml.Node.aliases, Yaml.Node.aliasesOfValues] using ht⟩

/-- There is a cycle, but the operand before the alias denotes nothing. -/
theorem read_settles_iff_behindUnknown :
    selfVocabulary.anchors.Resolved behindUnknown ∧ selfVocabulary.anchors.Leads 0 0 ∧
      ¬ selfVocabulary.Loops behindUnknown := by
  refine ⟨resolved_selfVocabulary rfl, ⟨selfSine, rfl, List.mem_singleton_self _⟩, ?_⟩
  exact (read_settles_iff (resolved_selfVocabulary rfl)).1.mp (.inr ⟨_, rfl⟩)

/-- The sine of itself has no reading at any depth, and a document can hold it. -/
theorem readAt_selfSine_endless :
    selfVocabulary.anchors.Resolved selfSine ∧
      (∀ depth, selfVocabulary.readAt (selfVocabulary.follow depth) selfSine =
        .error (.fault .endless)) ∧
      (match Description.read "define: [\x7ba: &x \x7bsin: *x\x7d\x7d]\n" with
        | .error (.fault .endless) => true
        | _ => false) = true := by
  have hread : selfVocabulary.read selfSine = .error (.fault .endless) := rfl
  refine ⟨resolved_selfVocabulary rfl, ?_, by decide +kernel⟩
  exact (loops_of_read_eq_endless hread).readAt_eq_endless

end Vocabulary

end ShaderExpr
