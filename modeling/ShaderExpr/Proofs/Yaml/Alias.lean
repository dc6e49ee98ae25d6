import Mathlib.Data.List.Forall2
import ShaderExpr.Proofs.Descent
import ShaderExpr.Yaml.Node

/-!
# Where aliases lead

The nodes of a document are trees, but with its aliases a document is a graph: an alias leads to an
anchored node, which may hold aliases itself and may be the very node that the alias stands in. Whoever
follows aliases to some depth and comes to the end of it has passed a cycle, if the depth was the number
of anchored nodes. And where there is no cycle, every alias can be replaced by a copy of what it leads
to.

* **`Anchors.Leads`** — one anchored node holds an alias to another.
* **`Anchors.Acyclic`** — no alias of a node leads to a cycle.
* **`Anchors.expand?`** — the copy of a node with every alias replaced that is not a key.
* **`Anchors.Acyclic.expand?_eq_some`** — there is one, if no alias leads to a cycle.
-/

namespace ShaderExpr.Yaml

open Relation (ReflTransGen TransGen)

/-! ## Trees of nodes -/

namespace Node

/-- Induction over trees of nodes, with the content of a node as a list. -/
@[elab_as_elim]
theorem induction {P : Node → Prop} (scalar : ∀ line tag text, P (.scalar line tag text))
    (mapping : ∀ line content, (∀ n ∈ content, P n) → P (.mapping line content))
    (sequence : ∀ line content, (∀ n ∈ content, P n) → P (.sequence line content))
    (reference : ∀ line name target, P (.alias line name target))
    (document : ∀ line content, (∀ n ∈ content, P n) → P (.document line content))
    (absent : ∀ line, P (.absent line)) (n : Node) : P n := by
  refine @Node.rec P (fun content => ∀ n ∈ content, P n) scalar mapping sequence reference
    document absent nofun ?_ n
  intro n content hn hcontent m hm
  rcases List.mem_cons.mp hm with rfl | hm
  · exact hn
  · exact hcontent m hm

/-- The values in the content of a mapping, without the keys. -/
def values : List Node → List Node
  | _ :: value :: rest => value :: values rest
  | _ => []

/-- Values are part of the content, so a mapping gives its induction hypothesis for each of them. -/
theorem mem_of_mem_values {content : List Node} {n : Node} (h : n ∈ values content) :
    n ∈ content := by
  fun_induction values content with
  | case1 key value rest ih =>
      rcases List.mem_cons.mp h with rfl | h
      · simp
      · simp [ih h]
  | case2 => cases h

mutual

/-- What the aliases in a tree refer to. A key is told by its text, so an alias there does not count. -/
def aliases : Node → List (Option Nat)
  | .alias _ _ target => [target]
  | .mapping _ content => aliasesOfValues content
  | .sequence _ content | .document _ content => aliasesAll content
  | .scalar .. | .absent _ => []

def aliasesAll : List Node → List (Option Nat)
  | [] => []
  | n :: ns => aliases n ++ aliasesAll ns

def aliasesOfValues : List Node → List (Option Nat)
  | _ :: value :: rest => aliases value ++ aliasesOfValues rest
  | _ => []

end

theorem mem_aliasesAll {ns : List Node} {t : Option Nat} :
    t ∈ aliasesAll ns ↔ ∃ n ∈ ns, t ∈ n.aliases := by
  induction ns with
  | nil => simp [aliasesAll]
  | cons n ns ih => simp [aliasesAll, ih]

theorem mem_aliasesOfValues {content : List Node} {t : Option Nat} :
    t ∈ aliasesOfValues content ↔ ∃ n ∈ values content, t ∈ n.aliases := by
  fun_induction values content with
  | case1 key value rest ih => simp [aliasesOfValues, ih]
  | case2 content hpair =>
      rw [aliasesOfValues]
      · simp
      · exact hpair

end Node

/-! ## The graph of a document -/

namespace Anchors

/-- The anchored node at the first index holds an alias to that at the second. -/
def Leads (anchors : Anchors) (i j : Nat) : Prop := ∃ n, anchors[i]? = some n ∧ some j ∈ n.aliases

/-- No alias of the node leads to an anchored node that leads back to itself. -/
def Acyclic (anchors : Anchors) (n : Node) : Prop :=
  ∀ i j, some i ∈ n.aliases → ReflTransGen anchors.Leads i j → ¬ TransGen anchors.Leads j j

/-- Every alias refers to an anchored node, those in anchored nodes included. -/
structure Resolved (anchors : Anchors) (n : Node) : Prop where
  own : ∀ t ∈ n.aliases, ∃ i, i < anchors.size ∧ t = some i
  anchored : ∀ m ∈ anchors, ∀ t ∈ m.aliases, ∃ i, i < anchors.size ∧ t = some i

/-! One anchored node without aliases is enough for many documents. -/

/-- Whatever refers to the one anchored node is resolved. -/
theorem Resolved.singleton {shared n : Node} (hshared : shared.aliases = [])
    (hn : ∀ t ∈ n.aliases, t = some 0) : Resolved #[shared] n where
  own t ht := ⟨0, by simp, hn t ht⟩
  anchored m hm t ht := by
    have hm : m = shared := by simpa using hm
    simp [hm, hshared] at ht

/-- A cycle would start with an alias in the anchored node. -/
theorem Acyclic.singleton {shared n : Node} (hshared : shared.aliases = []) :
    Acyclic #[shared] n := by
  intro i j _ _ hjj
  obtain ⟨k, ⟨m, hm, hk⟩, _⟩ := TransGen.head'_iff.mp hjj
  have hm : m = shared := by
    have hmem : m ∈ #[shared] := Array.mem_of_getElem? hm
    simpa using hmem
  simp [hm, hshared] at hk

end Anchors

/-! ## Copies without aliases -/

namespace Node

mutual

/-- The tree with every alias replaced by what there is for it. Keys stay as they are. -/
def graft (copy : Option Nat → Option Node) : Node → Option Node
  | .alias _ _ target => copy target
  | .scalar line tag text => some (.scalar line tag text)
  | .mapping line content => (graftValues copy content).map (.mapping line)
  | .sequence line content => (graftAll copy content).map (.sequence line)
  | .document line content => (graftAll copy content).map (.document line)
  | .absent line => some (.absent line)

def graftAll (copy : Option Nat → Option Node) : List Node → Option (List Node)
  | [] => some []
  | n :: ns => do return (← graft copy n) :: (← graftAll copy ns)

def graftValues (copy : Option Nat → Option Node) : List Node → Option (List Node)
  | key :: value :: rest => do return key :: (← graft copy value) :: (← graftValues copy rest)
  | content => some content

end

variable {copy copy' : Option Nat → Option Node}

/-- The copies of nodes are the copies of each of them, in order. -/
theorem graftAll_eq_some_iff {ns ns' : List Node} :
    graftAll copy ns = some ns' ↔ List.Forall₂ (fun n n' => n.graft copy = some n') ns ns' := by
  induction ns generalizing ns' with
  | nil => simp [graftAll, eq_comm]
  | cons n ns ih =>
      constructor
      · intro h
        obtain ⟨n', hn, h⟩ := Option.bind_eq_some_iff.mp h
        obtain ⟨rest, hns, heq⟩ := Option.bind_eq_some_iff.mp h
        cases heq
        exact .cons hn (ih.mp hns)
      · intro h
        cases h with
        | cons hn hns => simp [graftAll, hn, ih.mpr hns]

theorem graftAll_eq_none {ns : List Node} (h : graftAll copy ns = none) :
    ∃ n ∈ ns, n.graft copy = none := by
  induction ns with
  | nil => cases h
  | cons n ns ih =>
      cases hn : n.graft copy with
      | none => exact ⟨n, List.mem_cons_self, hn⟩
      | some n' =>
          have hns : graftAll copy ns = none :=
            Option.eq_none_iff_forall_ne_some.mpr (by simpa [graftAll, hn] using h)
          obtain ⟨m, hm, hnone⟩ := ih hns
          exact ⟨m, List.mem_cons_of_mem _ hm, hnone⟩

/-- If a mapping has no copy, one of its values has none: keys are copied as they are. -/
theorem graftValues_eq_none {content : List Node} (h : graftValues copy content = none) :
    ∃ n ∈ values content, n.graft copy = none := by
  fun_induction values content with
  | case1 key value rest ih =>
      cases hvalue : value.graft copy with
      | none => exact ⟨value, List.mem_cons_self, hvalue⟩
      | some value' =>
          -- the value is grafted, so it must be the rest that is not
          have hrest : graftValues copy rest = none :=
            Option.eq_none_iff_forall_ne_some.mpr (by simpa [graftValues, hvalue] using h)
          obtain ⟨m, hm, hnone⟩ := ih hrest
          exact ⟨m, List.mem_cons_of_mem _ hm, hnone⟩
  | case2 content hpair =>
      rw [graftValues] at h
      · cases h
      · exact hpair

/-- The only trees that have no copy are those with an alias for which there is none. Induction on
the tree, down to the alias. -/
theorem graft_eq_none {n : Node} (h : n.graft copy = none) : ∃ t ∈ n.aliases, copy t = none := by
  induction n using Node.induction with
  | scalar => cases h
  | absent => cases h
  -- an alias itself has no copy if what it leads to has none
  | reference line name target => exact ⟨target, List.mem_singleton_self _, h⟩
  | mapping line content ih =>
      obtain ⟨n, hn, hnone⟩ := graftValues_eq_none (Option.map_eq_none_iff.mp h)
      obtain ⟨t, ht, hcopy⟩ := ih n (mem_of_mem_values hn) hnone
      exact ⟨t, mem_aliasesOfValues.mpr ⟨n, hn, ht⟩, hcopy⟩
  | sequence line content ih | document line content ih =>
      obtain ⟨n, hn, hnone⟩ := graftAll_eq_none (Option.map_eq_none_iff.mp h)
      obtain ⟨t, ht, hcopy⟩ := ih n hn hnone
      exact ⟨t, mem_aliasesAll.mpr ⟨n, hn, ht⟩, hcopy⟩

theorem graftAll_mono {ns ns' : List Node}
    (ih : ∀ n ∈ ns, ∀ n', n.graft copy = some n' → n.graft copy' = some n')
    (h : graftAll copy ns = some ns') : graftAll copy' ns = some ns' := by
  rw [graftAll_eq_some_iff] at h ⊢
  -- each node keeps its copy, and the lists are compared node by node
  exact ((List.forall₂_and_left _ _).mpr ⟨ih, h⟩).imp fun _ n' h => h.1 n' h.2

theorem graftValues_mono {content content' : List Node}
    (ih : ∀ n ∈ content, ∀ n', n.graft copy = some n' → n.graft copy' = some n')
    (h : graftValues copy content = some content') : graftValues copy' content = some content' := by
  fun_induction values content generalizing content' with
  | case1 key value rest ihrest =>
      obtain ⟨value', hvalue, h⟩ := Option.bind_eq_some_iff.mp h
      obtain ⟨rest', hrest, heq⟩ := Option.bind_eq_some_iff.mp h
      cases heq
      have hvalue' := ih value (by simp) value' hvalue
      have hrest' := ihrest (fun n hn => ih n (by simp [hn])) hrest
      simp [graftValues, hvalue', hrest']
  | case2 content hpair =>
      -- what is not a pair stays as it is
      rw [graftValues] at h ⊢
      · exact h
      · exact hpair
      · exact hpair

theorem length_graftValues {content content' : List Node}
    (h : graftValues copy content = some content') : content'.length = content.length := by
  fun_induction values content generalizing content' with
  | case1 key value rest ih =>
      obtain ⟨value', _, h⟩ := Option.bind_eq_some_iff.mp h
      obtain ⟨rest', hrest, heq⟩ := Option.bind_eq_some_iff.mp h
      cases heq
      simp [ih hrest]
  | case2 content hpair =>
      rw [graftValues] at h
      · cases h
        rfl
      · exact hpair

/-- A mapping with one key keeps it, and has the copy of its value. -/
theorem graft_pair_eq_some {line : Nat} {key value n' : Node}
    (h : (Node.mapping line [key, value]).graft copy = some n') :
    ∃ value', value.graft copy = some value' ∧ n' = .mapping line [key, value'] := by
  obtain ⟨content', hcontent, rfl⟩ := Option.map_eq_some_iff.mp h
  obtain ⟨value', hvalue, heq⟩ := Option.bind_eq_some_iff.mp hcontent
  cases heq
  exact ⟨value', hvalue, rfl⟩

/-- More copies of anchored nodes change no copy that there is. Induction on the tree. -/
theorem graft_mono (hcopy : ∀ t n, copy t = some n → copy' t = some n) {n n' : Node}
    (h : n.graft copy = some n') : n.graft copy' = some n' := by
  induction n using Node.induction generalizing n' with
  | scalar => exact h
  | absent => exact h
  | reference line name target => exact hcopy target n' h
  | mapping line content ih =>
      obtain ⟨content', hsome, rfl⟩ := Option.map_eq_some_iff.mp h
      simp [graft, graftValues_mono (fun n hn n' => ih n hn) hsome]
  | sequence line content ih | document line content ih =>
      obtain ⟨content', hsome, rfl⟩ := Option.map_eq_some_iff.mp h
      simp [graft, graftAll_mono (fun n hn n' => ih n hn) hsome]

theorem aliasesAll_graftAll {ns ns' : List Node}
    (ih : ∀ n ∈ ns, ∀ n', n.graft copy = some n' → n'.aliases = [])
    (h : graftAll copy ns = some ns') : aliasesAll ns' = [] := by
  induction ns generalizing ns' with
  | nil =>
      cases h
      rfl
  | cons n ns ihns =>
      cases graftAll_eq_some_iff.mp h with
      | cons hn hns =>
          have hrest := ihns (fun m hm => ih m (by simp [hm])) (graftAll_eq_some_iff.mpr hns)
          simp [aliasesAll, hrest, ih n (by simp) _ hn]

theorem aliasesOfValues_graftValues {content content' : List Node}
    (ih : ∀ n ∈ content, ∀ n', n.graft copy = some n' → n'.aliases = [])
    (h : graftValues copy content = some content') : aliasesOfValues content' = [] := by
  fun_induction values content generalizing content' with
  | case1 key value rest ihrest =>
      obtain ⟨value', hvalue, h⟩ := Option.bind_eq_some_iff.mp h
      obtain ⟨rest', hrest, heq⟩ := Option.bind_eq_some_iff.mp h
      cases heq
      have hrest' := ihrest (fun n hn => ih n (by simp [hn])) hrest
      simp [aliasesOfValues, hrest', ih value (by simp) value' hvalue]
  | case2 content hpair =>
      rw [graftValues] at h
      · cases h
        rw [aliasesOfValues]
        exact hpair
      · exact hpair

/-- A tree has no aliases any more, if what they are replaced by has none. Those that stand as keys
do not count. -/
theorem aliases_graft (hcopy : ∀ t n, copy t = some n → n.aliases = []) {n n' : Node}
    (h : n.graft copy = some n') : n'.aliases = [] := by
  induction n using Node.induction generalizing n' with
  | scalar | absent =>
      cases h
      rfl
  | reference line name target => exact hcopy target n' h
  | mapping line content ih =>
      obtain ⟨content', hsome, rfl⟩ := Option.map_eq_some_iff.mp h
      exact aliasesOfValues_graftValues (fun n hn n' => ih n hn) hsome
  | sequence line content ih | document line content ih =>
      obtain ⟨content', hsome, rfl⟩ := Option.map_eq_some_iff.mp h
      exact aliasesAll_graftAll (fun n hn n' => ih n hn) hsome

end Node

namespace Anchors

variable {anchors : Anchors}

/-- A copy of the anchored node at an index, if following aliases so deep comes to an end. -/
def copy (anchors : Anchors) : Nat → Option Nat → Option Node
  | 0, _ => none
  | depth + 1, target => do (← target.bind (anchors[·]?)).graft (copy anchors depth)

/-- The node with every alias replaced by a copy of the node that it leads to. -/
def expand? (anchors : Anchors) (n : Node) : Option Node := n.graft (anchors.copy anchors.size)

def expandAll? (anchors : Anchors) (ns : List Node) : Option (List Node) :=
  Node.graftAll (anchors.copy anchors.size) ns

/-- Following aliases one step deeper changes no copy that there is. -/
theorem copy_succ {depth : Nat} {target : Option Nat} {n : Node}
    (h : anchors.copy depth target = some n) : anchors.copy (depth + 1) target = some n := by
  induction depth generalizing target n with
  | zero => cases h
  | succ depth ih =>
      obtain ⟨m, hm, hgraft⟩ := Option.bind_eq_some_iff.mp h
      exact Option.bind_eq_some_iff.mpr ⟨m, hm, Node.graft_mono (fun _ _ => ih) hgraft⟩

theorem copy_mono {depth depth' : Nat} (hle : depth ≤ depth') {target : Option Nat} {n : Node}
    (h : anchors.copy depth target = some n) : anchors.copy depth' target = some n := by
  induction hle with
  | refl => exact h
  | step _ ih => exact copy_succ ih

/-- A copy has no aliases, however deep they were followed. Induction on the depth. -/
theorem aliases_copy {depth : Nat} {target : Option Nat} {n : Node}
    (h : anchors.copy depth target = some n) : n.aliases = [] := by
  induction depth generalizing target n with
  | zero => cases h
  | succ depth ih =>
      obtain ⟨m, _, hgraft⟩ := Option.bind_eq_some_iff.mp h
      exact Node.aliases_graft (fun _ _ => ih) hgraft

/-- **A node whose aliases lead to no cycle has a copy without aliases.** Where there is none,
copying goes on through an alias for as many steps as there are anchored nodes, so it passes one of
them twice. -/
theorem Acyclic.expand?_eq_some {n : Node} (hc : anchors.Acyclic n) (hr : anchors.Resolved n) :
    ∃ n', anchors.expand? n = some n' := by
  by_contra hnone
  push Not at hnone
  have hgraft : n.graft (anchors.copy anchors.size) = none :=
    Option.eq_none_iff_forall_ne_some.mpr hnone
  obtain ⟨t, ht, hcopy⟩ := Node.graft_eq_none hgraft
  obtain ⟨i, hi, rfl⟩ := hr.own t ht
  -- the descent: at each depth an anchored node that has no copy so deep
  have hcycle := exists_cycle_of_descent (r := anchors.Leads)
    (P := fun d i => i < anchors.size ∧ anchors.copy d (some i) = none) (List.range anchors.size)
    (fun _ _ h => List.mem_range.mpr h.1) ?_ List.length_range.le ⟨hi, hcopy⟩
  · obtain ⟨j, hij, hjj⟩ := hcycle
    exact hc i j ht hij hjj
  · rintro d i ⟨hi, hcopy⟩
    -- no copy at this depth is due to an alias without one at the depth before
    have hget : anchors[i]? = some anchors[i] := Array.getElem?_eq_getElem hi
    have hgraft : anchors[i].graft (anchors.copy d) = none := by simpa [copy, hget] using hcopy
    obtain ⟨t, ht, hcopy⟩ := Node.graft_eq_none hgraft
    obtain ⟨j, hj, rfl⟩ := hr.anchored _ (Array.getElem_mem hi) t ht
    exact ⟨j, ⟨_, hget, ht⟩, hj, hcopy⟩

end Anchors

end ShaderExpr.Yaml
