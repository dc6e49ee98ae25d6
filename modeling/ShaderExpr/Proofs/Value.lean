import Mathlib.Algebra.Ring.Nat
import ShaderExpr.Evaluator.Builtin

/-!
# Shapes and components of values

What the functions that make values give: the shape they were asked for, and components that can be
read back. Later proofs use these and never open the sixteen lanes of a value.
-/

namespace ShaderExpr.Value

/-! ## Shapes -/

@[simp] theorem shape_build (s : Shape) (f : Nat → Binary32) : (build s f).shape = s := by
  rw [build]

@[simp] theorem shape_ofList (s : Shape) (xs : List Binary32) : (ofList s xs).shape = s := by
  rw [ofList, shape_build]

@[simp] theorem shape_ofRows (s : Shape) (xs : List Binary32) : (ofRows s xs).shape = s := by
  unfold ofRows
  split
  · exact shape_ofList _ _
  · exact shape_ofList _ _

@[simp] theorem shape_map (f : Binary32 → Binary32) (v : Value) : (v.map f).shape = v.shape := by
  rw [map]

@[simp] theorem shape_mapIdx (f : Nat → Binary32 → Binary32) (v : Value) :
    (v.mapIdx f).shape = v.shape := by
  rw [mapIdx]

@[simp] theorem shape_matMul (a : Arith) (x y : Value) : (matMul a x y).shape = x.shape := by
  rw [matMul, shape_build]

@[simp] theorem shape_matVec (a : Arith) (m x : Value) : (matVec a m x).shape = x.shape := by
  rw [matVec, shape_build]

@[simp] theorem shape_vecMat (a : Arith) (x m : Value) : (vecMat a x m).shape = x.shape := by
  rw [vecMat, shape_build]

@[simp] theorem shape_spread (s : Shape) (x : Binary32) : (spread s x).shape = s := by
  unfold spread
  split
  · exact shape_build _ _
  · exact shape_build _ _

/-! ## Components -/

theorem arity_le_laneCount (s : Shape) : s.arity ≤ laneCount := by
  cases s <;> decide

theorem column_arity_mul {s : Shape} (h : s.isMatrix = true) :
    s.column.arity * s.column.arity = s.arity := by
  cases s <;> first | rfl | cases h

/-- A lane of the shape is what the function gives for it. All lanes of a shape exist. -/
theorem lane_build {s : Shape} {i : Nat} (h : i < s.arity) (f : Nat → Binary32) :
    (build s f).lane i = f i := by
  have hlane : i < laneCount := Nat.lt_of_lt_of_le h (arity_le_laneCount s)
  rw [lane, build, Vector.getElem?_eq_getElem hlane, Option.getD_some, Vector.getElem_ofFn, if_pos h]

/-- Lanes beyond the shape hold zero, and so do those beyond the sixteen that there are. -/
theorem lane_build_of_le {s : Shape} {i : Nat} (h : s.arity ≤ i) (f : Nat → Binary32) :
    (build s f).lane i = 0 := by
  unfold lane build
  by_cases hlane : i < laneCount
  · rw [Vector.getElem?_eq_getElem hlane, Option.getD_some, Vector.getElem_ofFn,
      if_neg (Nat.not_lt.mpr h)]
  · -- no such lane
    rw [Vector.getElem?_eq_none (Nat.not_lt.mp hlane), Option.getD_none]

theorem lane_ofList {s : Shape} {xs : List Binary32} {i : Nat} {x : Binary32} (hi : i < s.arity)
    (hx : xs[i]? = some x) : (ofList s xs).lane i = x := by
  rw [ofList, lane_build hi, List.getD_eq_getElem?_getD, hx, Option.getD_some]

/-- The components of a value are its lanes up to the size of its shape, in order. -/
theorem getElem?_comps {v : Value} {i : Nat} (hi : i < v.shape.arity) :
    v.comps[i]? = some (v.lane i) := by
  rw [comps, List.getElem?_map, List.getElem?_range hi, Option.map_some]

/-- The number that a value brings to a lane: a single number is the same in all of them. -/
def component (v : Value) (i : Nat) : Binary32 := if v.shape = .float then v.lane 0 else v.lane i

/-- Inside its shape a value brings its own lane; a single number has only the lane zero there. -/
theorem component_eq_lane {v : Value} {i : Nat} (hi : i < v.shape.arity) : v.component i = v.lane i := by
  unfold component
  split
  · next hfloat =>
      rw [hfloat] at hi
      rw [Nat.lt_one_iff.mp hi]
  · rfl

/-- A function of index and number is applied in the lanes of the shape. -/
theorem lane_mapIdx {v : Value} {i : Nat} (hi : i < v.shape.arity) (f : Nat → Binary32 → Binary32) :
    (v.mapIdx f).lane i = f i (v.lane i) := by
  have hlane : i < laneCount := Nat.lt_of_lt_of_le hi (arity_le_laneCount _)
  rw [lane, mapIdx, Vector.getElem?_eq_getElem hlane, Option.getD_some, Vector.getElem_ofFn, if_pos hi]

theorem lane_map {v : Value} {i : Nat} (hi : i < v.shape.arity) (f : Binary32 → Binary32) :
    (v.map f).lane i = f (v.lane i) :=
  lane_mapIdx hi fun _ => f

/-- What the functions do beyond the shape, or on other numbers, is of no matter. -/
theorem mapIdx_congr {v : Value} {f g : Nat → Binary32 → Binary32}
    (h : ∀ i < v.shape.arity, f i (v.lane i) = g i (v.lane i)) : v.mapIdx f = v.mapIdx g := by
  unfold mapIdx
  congr 2
  funext i
  split
  · next hi => exact h i hi
  · rfl

/-- A value is its shape and its lanes. Reading a lane beyond the last gives zero for all values, so
the condition is on all indices. -/
theorem eq_of_lanes {v w : Value} (hshape : v.shape = w.shape) (hlanes : ∀ i, v.lane i = w.lane i) :
    v = w := by
  obtain ⟨s, xs⟩ := v
  obtain ⟨t, ys⟩ := w
  obtain rfl : s = t := hshape
  have hvector : xs = ys := by
    ext i hi
    have hlane := hlanes i
    unfold lane at hlane
    simpa [hi] using hlane
  rw [hvector]

theorem length_comps (v : Value) : v.comps.length = v.shape.arity := by
  rw [comps, List.length_map, List.length_range]

/-- A value made from as many components as its shape has is made of them, in the same order. -/
theorem comps_ofList {s : Shape} {xs : List Binary32} (h : xs.length = s.arity) :
    (ofList s xs).comps = xs := by
  apply List.ext_getElem?
  intro i
  rw [comps, shape_ofList, List.getElem?_map]
  by_cases hi : i < s.arity
  · rw [List.getElem?_range hi, Option.map_some, ofList, lane_build hi,
      List.getD_eq_getElem?_getD, List.getElem?_eq_getElem (h ▸ hi), Option.getD_some]
  · rw [List.getElem?_eq_none (by rw [List.length_range]; omega),
      List.getElem?_eq_none (by omega), Option.map_none]

theorem comps_ofFloat (x : Binary32) : (ofFloat x).comps = [x] :=
  comps_ofList rfl

@[simp] theorem lane_ofFloat (x : Binary32) : (ofFloat x).lane 0 = x := by
  rw [ofFloat, ofList, lane_build Nat.one_pos]
  rfl

@[simp] theorem component_ofFloat (x : Binary32) (i : Nat) : (ofFloat x).component i = x := by
  rw [component, ofFloat, shape_ofList, if_pos rfl]
  exact lane_ofFloat x

/-! ## Constructors -/

theorem length_flatMap_comps (vs : List Value) :
    (vs.flatMap comps).length = (vs.map fun v => v.shape.arity).sum := by
  rw [List.length_flatMap]
  congr 1
  exact List.map_congr_left fun v _ => length_comps v

/-- As many components as a shape has make the value of it that consists of them, in order. A single number
is spread out only where more than one component is wanted. -/
theorem construct_eq_ok {s : Shape} {vs : List Value}
    (h : (vs.map fun v => v.shape.arity).sum = s.arity) :
    construct s vs = .ok (ofList s (vs.flatMap comps)) := by
  have hconcat : concat s vs = .ok (ofList s (vs.flatMap comps)) := by
    unfold concat
    simp only [length_flatMap_comps, h, Nat.lt_irrefl, if_false]
  unfold construct
  split
  · next x =>
      -- one number for a larger shape is not as many components as it has
      have hsingle : ¬ (x.shape = .float ∧ s ≠ .float) := by
        rintro ⟨hfloat, hs⟩
        have hone : s.arity = 1 := by simpa [hfloat, Shape.arity] using h.symm
        cases s <;> simp_all [Shape.arity]
      rw [if_neg hsingle]
      exact hconcat
  · exact hconcat

end ShaderExpr.Value
