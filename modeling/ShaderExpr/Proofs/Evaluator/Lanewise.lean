import ShaderExpr.Proofs.Evaluator.Expression

/-!
# Operations component by component

Most operations treat the components of a vector or a matrix each on its own. How they come to do so differs: some
apply a function to one value, some join two values, clamping and mixing join more than once, and the smooth step
goes over the components itself. A single number takes part in every component, and products of matrices are
caught before anything is joined. Here all of them come down to one description of what happens in a lane, which
does not depend on the shape; so a component of the result is the result of the same operation on numbers.

* **`Operation.onNumbers?`** — the operation on numbers that an operation does in every lane.
* **`Operation.laneOf`** — what it does there.
* **`Fills`** — a computation gives a value with these components.
* **`Operation.compute_fills`** — one case for each operation.
* **`Evaluator.operation_lanewise`** — components of results are results on components.
-/

namespace ShaderExpr

namespace Operation

/-- The operation on numbers that the operation does on every component of a shape, if it works that way. The product
of matrices does not, and there is another operation that multiplies their entries. -/
def onNumbers? (op : Operation) (s : Shape) : Option Operation :=
  match op with
  | add | sub | div | mod | neg | pow | min | max | clamp | mix | step | smoothstep | sin | cos | tan | exp | log
  | sqrt | abs | floor | fract | scale => some op
  | mult => if s.isMatrix then none else some mult
  | matrixCompMult => some mult
  | dot | cross | length | distance | normalize | faceforward | reflect | refract | transform => none

/-- What an operation on numbers does with the receiver and at most two other operands. -/
def laneOf (a : Arith) (op : Operation) (x : Binary32) (operands : List Binary32) : Binary32 :=
  let y := operands.getD 0 0
  let z := operands.getD 1 0
  match op with
  | add => a.add x y
  | sub => a.sub x y
  | mult | scale => a.mul x y
  | div => a.div x y
  | mod => a.mod x y
  | neg => a.neg x
  | pow => a.pow x y
  | min => a.min x y
  | max => a.max x y
  | clamp => a.min (a.max x y) z
  | mix => a.add x (a.mul (a.sub y x) z)
  | step => a.step y x
  | smoothstep => a.smoothstep y z x
  | sin => a.sin x
  | cos => a.cos x
  | tan => a.tan x
  | exp => a.exp x
  | log => a.log x
  | sqrt => a.sqrt x
  | abs => a.abs x
  | floor => a.floor x
  | fract => a.fract x
  | _ => 0

end Operation

/-! ## Filling the lanes of a value -/

/-- The computation gives a value of the shape, with these components. -/
def Fills (r : Except Error Value) (s : Shape) (f : Nat → Binary32) : Prop :=
  ∃ w, r = .ok w ∧ w.shape = s ∧ ∀ i < s.arity, w.lane i = f i

namespace Value

variable {f : Binary32 → Binary32 → Binary32} {x y : Value}

/-- A function of one number in each lane. -/
theorem map_fills (f : Binary32 → Binary32) (x : Value) :
    Fills (.ok (x.map f)) x.shape fun i => f (x.lane i) :=
  ⟨_, rfl, shape_map f x, fun _ hi => lane_map hi f⟩

/-- Two values are joined lane by lane, and a single number is joined with every lane. -/
theorem zip_fills (hy : y.shape = x.shape ∨ y.shape = .float) :
    Fills (zip f x y) x.shape fun i => f (x.lane i) (y.component i) :=
  ⟨_, zip_eq_ok hy, shape_mapIdx _ x, fun _ hi => lane_mapIdx hi _⟩

end Value

namespace Builtin

open Value

variable {a : Arith} {x y z : Value}

/-- The maximum with the lower bound and then the minimum with the upper: both join values of one
shape. -/
theorem clamp_fills (hy : y.shape = x.shape) (hz : z.shape = x.shape) :
    Fills (clamp a x y z) x.shape fun i => a.min (a.max (x.lane i) (y.component i)) (z.component i) := by
  obtain ⟨v, hv, hvshape, hvlane⟩ := zip_fills (f := a.max) (.inl hy)
  obtain ⟨w, hw, hwshape, hwlane⟩ := zip_fills (f := a.min) (.inl (hz.trans hvshape.symm))
  rw [hvshape] at hwshape hwlane
  refine ⟨w, ?_, hwshape, fun i hi => ?_⟩
  · unfold clamp
    rw [hv]
    exact hw
  · simp only [hwlane i hi, hvlane i hi]

/-- The difference is scaled by a number before it is added, so the second of three steps joins a
value with a single number. -/
theorem mix_fills (hy : y.shape = x.shape) (hz : z.shape = .float) :
    Fills (mix a x y z) x.shape fun i =>
      a.add (x.lane i) (a.mul (a.sub (y.component i) (x.lane i)) (z.component i)) := by
  obtain ⟨u, hu, hushape, hulane⟩ := zip_fills (f := a.sub) (.inl hy.symm)
  obtain ⟨v, hv, hvshape, hvlane⟩ := zip_fills (f := a.mul) (x := u) (.inr hz)
  have hvx : v.shape = x.shape := hvshape.trans (hushape.trans hy)
  obtain ⟨w, hw, hwshape, hwlane⟩ := zip_fills (f := a.add) (.inl hvx)
  refine ⟨w, ?_, hwshape, fun i hi => ?_⟩
  · unfold mix
    rw [hu]
    show zip a.mul u z >>= zip a.add x = _
    rw [hv]
    exact hw
  · have hyi : i < y.shape.arity := hy ▸ hi
    have hui : i < u.shape.arity := hushape ▸ hyi
    have hvi : i < v.shape.arity := hvshape ▸ hui
    simp only [hwlane i hi, hvlane i hui, hulane i hyi, component_eq_lane hi, component_eq_lane hyi,
      component_eq_lane hvi]

/-- The edges come first and the receiver last. All have one shape here, so none is a single number
among vectors. -/
theorem smoothstep_fills (hx : x.shape = z.shape) (hy : y.shape = z.shape) :
    Fills (smoothstep a x y z) z.shape fun i =>
      a.smoothstep (x.component i) (y.component i) (z.lane i) := by
  unfold smoothstep
  rw [if_pos ⟨hx.trans hy.symm, .inl hx⟩]
  refine ⟨_, rfl, shape_build _ _, fun i hi => ?_⟩
  rw [lane_build hi]
  unfold component
  rw [hx, hy]

end Builtin

/-! ## One lane for every operation -/

namespace Operation

variable {op scalar : Operation} {s : Shape}

theorem onNumbers?_mult_eq_some_iff :
    mult.onNumbers? s = some scalar ↔ s.isMatrix = false ∧ scalar = mult := by
  show (if s.isMatrix then none else some mult) = some scalar ↔ _
  cases s.isMatrix <;> simp [eq_comm]

/-- **What an operation computes on operands of the shapes of its signature, lane by lane.** What
happens in a lane is the same for all shapes. There is one case for each operation, and one argument
for each way in which values are joined. -/
theorem compute_fills (a : Arith) {x : Value} {vs : List Value} {sig : Signature}
    (hnumbers : op.onNumbers? x.shape = some scalar) (hsig : op.signature? x.shape = some sig)
    (hvs : vs.map Value.shape = sig.args) :
    Fills (op.compute a x vs) x.shape fun i => scalar.laneOf a (x.lane i) (vs.map (·.component i)) := by
  obtain ⟨hshape, rfl⟩ := signature?_eq_some_iff.mp hsig
  cases op with
  | neg | sin | cos | tan | exp | log | sqrt | abs | floor | fract =>
      obtain rfl := Option.some.inj hnumbers
      obtain rfl := List.map_eq_nil_iff.mp hvs
      exact Value.map_fills _ x
  | add | sub | div | mod | pow | min | max =>
      obtain rfl := Option.some.inj hnumbers
      obtain ⟨y, rfl, (hy : y.shape = x.shape)⟩ := exists_of_map_shape_eq_one hvs
      exact Value.zip_fills (.inl hy)
  | mult =>
      obtain ⟨hmatrix, rfl⟩ := onNumbers?_mult_eq_some_iff.mp hnumbers
      obtain ⟨y, rfl, (hy : y.shape = x.shape)⟩ := exists_of_map_shape_eq_one hvs
      -- not a product of matrices, which has another rule
      have hproduct : ¬ (x.shape.isMatrix = true ∧ y.shape = x.shape) := by simp [hmatrix]
      show Fills (Value.mult a x y) _ _
      rw [Value.mult_eq_zip a (.inl hy) hproduct]
      exact Value.zip_fills (.inl hy)
  | scale =>
      obtain rfl := Option.some.inj hnumbers
      -- a single number is no matrix of the receiver's shape
      obtain ⟨y, rfl, (hy : y.shape = .float)⟩ := exists_of_map_shape_eq_one hvs
      have hproduct : ¬ (x.shape.isMatrix = true ∧ y.shape = x.shape) := by
        rintro ⟨hmatrix, hsame⟩
        rw [← hsame, hy] at hmatrix
        cases hmatrix
      show Fills (Value.mult a x y) _ _
      rw [Value.mult_eq_zip a (.inr hy) hproduct]
      exact Value.zip_fills (.inr hy)
  | matrixCompMult =>
      obtain rfl := Option.some.inj hnumbers
      obtain ⟨y, rfl, (hy : y.shape = x.shape)⟩ := exists_of_map_shape_eq_one hvs
      show Fills (Builtin.matrixCompMult a x y) _ _
      unfold Builtin.matrixCompMult
      rw [if_pos (by simp [isMatrix_of_mem hshape, hy])]
      exact Value.zip_fills (.inl hy)
  | step =>
      obtain rfl := Option.some.inj hnumbers
      obtain ⟨y, rfl, (hy : y.shape = x.shape)⟩ := exists_of_map_shape_eq_one hvs
      -- the receiver is the last argument, so the lanes are those of the edge
      obtain ⟨w, hw, hwshape, hwlane⟩ := Value.zip_fills (f := a.step) (.inl hy.symm)
      refine ⟨w, hw, hwshape.trans hy, fun i hi => ?_⟩
      have hyi : i < y.shape.arity := hy ▸ hi
      simp only [hwlane i hyi, Value.component_eq_lane hi, List.map_cons, Value.component_eq_lane hyi]
      rfl
  | clamp =>
      obtain rfl := Option.some.inj hnumbers
      obtain ⟨y, z, rfl, (hy : y.shape = x.shape), (hz : z.shape = x.shape)⟩ := exists_of_map_shape_eq_two hvs
      exact Builtin.clamp_fills hy hz
  | mix =>
      obtain rfl := Option.some.inj hnumbers
      obtain ⟨y, z, rfl, (hy : y.shape = x.shape), (hz : z.shape = .float)⟩ := exists_of_map_shape_eq_two hvs
      exact Builtin.mix_fills hy hz
  | smoothstep =>
      obtain rfl := Option.some.inj hnumbers
      obtain ⟨y, z, rfl, (hy : y.shape = x.shape), (hz : z.shape = x.shape)⟩ := exists_of_map_shape_eq_two hvs
      exact Builtin.smoothstep_fills hy hz
  | dot | cross | length | distance | normalize | faceforward | reflect | refract | transform => cases hnumbers

/-- The operation on numbers does itself on numbers. It takes as many operands, which are numbers. -/
theorem onNumbers?_float (h : op.onNumbers? s = some scalar) :
    scalar.onNumbers? .float = some scalar ∧
      scalar.signature? .float = some ⟨op.entry.args.map fun _ => .float, .float⟩ := by
  cases op with
  | mult =>
      obtain ⟨_, rfl⟩ := onNumbers?_mult_eq_some_iff.mp h
      exact ⟨rfl, rfl⟩
  | _ => cases h <;> exact ⟨rfl, rfl⟩

end Operation

namespace Evaluator

/-- An operation that works component by component makes an expression, and its value has in each
lane what the operation on numbers makes of the operands there. -/
theorem hasValue_lanes {a : Arith} {ev : Evaluator} {op scalar : Operation} {sig : Signature} {recv : Expr}
    {args : List Expr} {x : Value} {vs : List Value} (hnumbers : op.onNumbers? recv.shape = some scalar)
    (hsig : op.signature? recv.shape = some sig) (hargs : args.map Expr.shape = sig.args)
    (hname : op.entry.form.isCall = true → ev.functions.get? op.symbol = none) (hx : ev.HasValue a recv x)
    (hvs : List.Forall₂ (ev.HasValue a) args vs) :
    ∃ e w, Expr.apply op.code (some recv) (args.map some) = .ok e ∧ ev.HasValue a e w ∧ w.shape = recv.shape ∧
      ∀ i < recv.shape.arity, w.lane i = scalar.laneOf a (x.component i) (vs.map (·.component i)) := by
  obtain ⟨e, w, he, _, hw, hvalue⟩ := hasValue_apply hsig hargs hname hx hvs
  rw [← hx.2] at hnumbers hsig ⊢
  obtain ⟨w', hw', hshape, hlane⟩ :=
    Operation.compute_fills a hnumbers hsig ((shapes_of_hasValue hvs).trans hargs)
  obtain rfl : w' = w := Except.ok.inj (hw'.symm.trans hw)
  refine ⟨e, w', he, hvalue, hshape, fun i hi => ?_⟩
  rw [hlane i hi, Value.component_eq_lane hi]

/-- **Components of results are results on components.** Take an operation that works component by component on a
shape, and expressions of the shapes of its signature that have values. The operation applies to them, and the
expression has a value of the shape of the receiver. In every lane, that value is the result of the operation on
numbers: wherever expressions have the numbers of the operands in the lane as their values, this operation applies
to them, and its value is the number in the lane. A single number among the operands takes part in every lane. All
this holds for any arithmetic on numbers, and wherever no function hides an operation that is written as a call. -/
theorem operation_lanewise (a : Arith) {op scalar : Operation} {s : Shape} {sig : Signature}
    (hnumbers : op.onNumbers? s = some scalar) (hsig : op.signature? s = some sig) {ev : Evaluator}
    (hname : op.entry.form.isCall = true → ev.functions.get? op.symbol = none) {recv : Expr} {args : List Expr}
    (hrecv : recv.shape = s) (hargs : args.map Expr.shape = sig.args) {x : Value} {vs : List Value}
    (hx : ev.HasValue a recv x) (hvs : List.Forall₂ (ev.HasValue a) args vs) :
    ∃ e w, Expr.apply op.code (some recv) (args.map some) = .ok e ∧ ev.HasValue a e w ∧ w.shape = s ∧
      ∀ i < s.arity, ∀ (ev' : Evaluator) (recv' : Expr) (args' : List Expr),
        (scalar.entry.form.isCall = true → ev'.functions.get? scalar.symbol = none) →
        ev'.HasValue a recv' (.ofFloat (x.component i)) →
        List.Forall₂ (ev'.HasValue a) args' (vs.map fun v => .ofFloat (v.component i)) →
          ∃ e' u, Expr.apply scalar.code (some recv') (args'.map some) = .ok e' ∧ ev'.HasValue a e' u ∧
            u.shape = .float ∧ u.lane 0 = w.lane i := by
  subst hrecv
  obtain ⟨e, w, he, hvalue, hshape, hlane⟩ := hasValue_lanes hnumbers hsig hargs hname hx hvs
  refine ⟨e, w, he, hvalue, hshape, fun i hi ev' recv' args' hname' hx' hvs' => ?_⟩
  -- the operands in the lane are numbers, as many as the operation has operands
  have hrecv' : recv'.shape = .float := hx'.2.symm
  have hargs' : args'.map Expr.shape = op.entry.args.map fun _ => .float := by
    obtain ⟨_, rfl⟩ := Operation.signature?_eq_some_iff.mp hsig
    have hlength : vs.length = op.entry.args.length := by
      simpa using congrArg List.length ((shapes_of_hasValue hvs).trans hargs)
    rw [← shapes_of_hasValue hvs', List.map_map]
    simp [Function.comp_def, Value.ofFloat, hlength]
  -- on numbers the operation does the same in its only lane
  obtain ⟨hnumbers', hsig'⟩ := Operation.onNumbers?_float hnumbers
  obtain ⟨e', u, he', hvalue', hushape, hulane⟩ :=
    hasValue_lanes (hrecv'.symm ▸ hnumbers') (by rw [hrecv', hsig']) hargs' hname' hx' hvs'
  rw [hrecv'] at hushape hulane
  refine ⟨e', u, he', hvalue', hushape, ?_⟩
  rw [hulane 0 Nat.one_pos, hlane i hi, List.map_map]
  simp [Function.comp_def]

/-- An evaluator with two vectors and a number. -/
def mixEvaluator : Evaluator :=
  ⟨⟨[("p", .ofList .vec2 [1, 2]), ("q", .ofList .vec2 [3, 4]), ("t", .ofFloat 5)]⟩, .empty⟩

/-- An evaluator with the second components of the vectors, and the number. -/
def mixLaneEvaluator : Evaluator := ⟨⟨[("p", .ofFloat 2), ("q", .ofFloat 4), ("t", .ofFloat 5)]⟩, .empty⟩

/-- Mixing two vectors by a number, and mixing their second components by it. -/
theorem operation_lanewise_mix :
    Operation.mix.onNumbers? .vec2 = some .mix ∧ Operation.mix.signature? .vec2 = some ⟨[.vec2, .float], .vec2⟩ ∧
    ∀ a : Arith, ∃ e w e' u,
      Expr.apply Operation.mix.code (some (.var "p" .vec2)) [some (.var "q" .vec2), some (.var "t" .float)] =
        .ok e ∧ mixEvaluator.eval a e.node = .ok w ∧ w.shape = .vec2 ∧
      Expr.apply Operation.mix.code (some (.var "p" .float)) [some (.var "q" .float), some (.var "t" .float)] =
        .ok e' ∧ mixLaneEvaluator.eval a e'.node = .ok u ∧ u.shape = .float ∧ u.lane 0 = w.lane 1 := by
  have hnumbers : Operation.mix.onNumbers? .vec2 = some .mix := rfl
  have hsig : Operation.mix.signature? .vec2 = some ⟨[.vec2, .float], .vec2⟩ := rfl
  refine ⟨hnumbers, hsig, fun a => ?_⟩
  have hx : mixEvaluator.HasValue a (.var "p" .vec2) (.ofList .vec2 [1, 2]) := ⟨rfl, rfl⟩
  have hvs : List.Forall₂ (mixEvaluator.HasValue a) [.var "q" .vec2, .var "t" .float]
      [.ofList .vec2 [3, 4], .ofFloat 5] := .cons ⟨rfl, rfl⟩ (.cons ⟨rfl, rfl⟩ .nil)
  obtain ⟨e, w, he, hvalue, hshape, hlane⟩ :=
    operation_lanewise a hnumbers hsig (fun _ => rfl) rfl rfl hx hvs
  obtain ⟨e', u, he', hvalue', hushape, hu⟩ := hlane 1 (by decide) mixLaneEvaluator (.var "p" .float)
    [.var "q" .float, .var "t" .float] (fun _ => rfl) ⟨rfl, rfl⟩ (.cons ⟨rfl, rfl⟩ (.cons ⟨rfl, rfl⟩ .nil))
  exact ⟨e, w, e', u, he, hvalue.1, hshape, he', hvalue'.1, hushape, hu⟩

end Evaluator

end ShaderExpr
