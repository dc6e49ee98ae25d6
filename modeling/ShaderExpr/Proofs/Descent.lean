import Mathlib.Data.List.Chain
import Mathlib.Data.List.Duplicate
import Mathlib.Data.List.Perm.Subperm
import Mathlib.Logic.Relation

/-!
# Long descents

Some computations go from place to place and are given a number of steps to do it. If there are no more
places than steps and the steps do not suffice, then they went in a cycle. Copying the nodes of a document,
reading expressions and calling functions are descents in this sense.
-/

namespace ShaderExpr

open Relation (ReflTransGen TransGen)

variable {α : Type} {r : α → α → Prop}

/-- A list that is longer than there are places has one of them twice, and a chain comes from one to the
other. -/
theorem exists_cycle_of_isChain {places : List α} {i : α} {l : List α} (hchain : (i :: l).IsChain r)
    (hbound : i :: l ⊆ places) (hlength : places.length < (i :: l).length) :
    ∃ j, ReflTransGen r i j ∧ TransGen r j j := by
  have hrepeats : ¬ (i :: l).Nodup := by
    intro hnodup
    have hle := (List.subperm_of_subset hnodup hbound).length_le
    omega
  obtain ⟨j, hj⟩ := List.exists_duplicate_iff_not_nodup.mpr hrepeats
  have hlong : (i :: l).IsChain (TransGen r) := hchain.imp fun _ _ h => .single h
  have hcycle : [j, j].IsChain (TransGen r) :=
    hlong.sublist (List.duplicate_iff_sublist.mp hj)
  refine ⟨j, ?_, by simpa using hcycle⟩
  rcases List.mem_cons.mp hj.mem with rfl | hmem
  · exact .refl
  · exact ((List.pairwise_cons.mp (List.isChain_iff_pairwise.mp hlong)).1 j hmem).to_reflTransGen

/-- **A long descent runs in a cycle.** Let `P d i` say that something goes on from `i` for `d` more steps.
If it goes on for as many steps as there are places, it passes one of them twice. -/
theorem exists_cycle_of_descent {P : Nat → α → Prop} (places : List α) (hbound : ∀ d i, P d i → i ∈ places)
    (hstep : ∀ d i, P (d + 1) i → ∃ j, r i j ∧ P d j) {steps : Nat} (hsteps : places.length ≤ steps) {i : α}
    (h : P steps i) : ∃ j, ReflTransGen r i j ∧ TransGen r j j := by
  have hpath : ∀ d i, P d i → ∃ l, (i :: l).IsChain r ∧ i :: l ⊆ places ∧ l.length = d := by
    intro d
    induction d with
    | zero =>
        intro i hi
        exact ⟨[], by simp, by simpa using hbound 0 i hi, rfl⟩
    | succ d ih =>
        intro i hi
        obtain ⟨j, hij, hj⟩ := hstep d i hi
        obtain ⟨l, hchain, hl, hlength⟩ := ih j hj
        refine ⟨j :: l, List.isChain_cons_cons.mpr ⟨hij, hchain⟩, ?_, by simp [hlength]⟩
        exact List.cons_subset.mpr ⟨hbound _ i hi, hl⟩
  obtain ⟨l, hchain, hl, hlength⟩ := hpath steps i h
  exact exists_cycle_of_isChain hchain hl (by rw [List.length_cons]; omega)

end ShaderExpr
