import ShaderExpr.Proofs.Evaluator.Expression

/-!
# Combining is concatenation

A combination lines up the components of expressions. The number of components is checked when the expression is
made, and counted again by the constructor that evaluates it. The constructor also has a rule of its own for a
single number, which it spreads over all components; no combination comes to it, since a single number fills a
number only. So a combination evaluates to the components of its parts one after the other, and how they were
grouped makes no difference.

* **`Components`** — the components of expressions in order.
* **`hasValue_combination`** — a combination has the components of its parts.
* **`Components.group`** — parts may be combined before they are combined with others.
* **`combination_concatenates`** — when there is a combination and what it evaluates to.
-/

namespace ShaderExpr.Evaluator

/-- The expressions evaluate to values of their shapes, and these are their components in order. -/
def Components (a : Arith) (ev : Evaluator) (es : List Expr) (xs : List Binary32) : Prop :=
  ∃ vs, List.Forall₂ (ev.HasValue a) es vs ∧ vs.flatMap Value.comps = xs

variable {a : Arith} {ev : Evaluator} {e : Expr} {v : Value} {es es' : List Expr} {vs : List Value}
  {xs ys : List Binary32}

/-! ## Components -/

theorem components_nil : ev.Components a [] [] := ⟨[], .nil, rfl⟩

theorem Components.cons (hv : ev.HasValue a e v) (h : ev.Components a es xs) :
    ev.Components a (e :: es) (v.comps ++ xs) := by
  obtain ⟨vs, hvs, rfl⟩ := h
  exact ⟨v :: vs, .cons hv hvs, List.flatMap_cons⟩

/-- Components are taken off the front, part by part. -/
theorem components_cons_iff :
    ev.Components a (e :: es) xs ↔
      ∃ v ys, ev.HasValue a e v ∧ ev.Components a es ys ∧ v.comps ++ ys = xs := by
  constructor
  · rintro ⟨vs, hvs, rfl⟩
    cases hvs with
    | cons hv hvs => exact ⟨_, _, hv, ⟨_, hvs, rfl⟩, List.flatMap_cons.symm⟩
  · rintro ⟨v, ys, hv, hys, rfl⟩
    exact hys.cons hv

/-- Components of parts that are put together are put together. Induction on the first parts, taking
them off one by one. -/
theorem components_append_iff :
    ev.Components a (es ++ es') xs ↔
      ∃ ys zs, ev.Components a es ys ∧ ev.Components a es' zs ∧ ys ++ zs = xs := by
  induction es generalizing xs with
  | nil =>
      constructor
      · intro h
        exact ⟨[], xs, components_nil, h, rfl⟩
      · rintro ⟨ys, zs, ⟨vs, hvs, rfl⟩, hzs, rfl⟩
        cases hvs
        exact hzs
  | cons e es ih =>
      -- the components of the first expression go to the front on both sides
      rw [List.cons_append, components_cons_iff]
      constructor
      · rintro ⟨v, _, hv, hrest, rfl⟩
        obtain ⟨ys, zs, hys, hzs, rfl⟩ := ih.mp hrest
        exact ⟨v.comps ++ ys, zs, hys.cons hv, hzs, List.append_assoc _ _ _⟩
      · rintro ⟨_, zs, hes, hzs, rfl⟩
        obtain ⟨v, ys, hv, hys, rfl⟩ := components_cons_iff.mp hes
        exact ⟨v, ys ++ zs, hv, ih.mpr ⟨ys, zs, hys, hzs, rfl⟩, (List.append_assoc _ _ _).symm⟩

/-- There are as many components as the shapes of the parts have, since values are of their
shapes. -/
theorem Components.length_eq (h : ev.Components a es xs) :
    xs.length = (es.map fun e => e.shape.arity).sum := by
  obtain ⟨vs, hvs, rfl⟩ := h
  rw [Value.length_flatMap_comps, Node.map_of_map_shape Shape.arity (shapes_of_hasValue hvs)]

/-! ## Combinations -/

/-- **A combination has the components of its parts.** The number of components was checked when it
was made, so the constructor does not spread, cut or fill. -/
theorem hasValue_combination {s : Shape} (hname : ev.functions.get? s.name = none)
    (h : ev.Components a es xs) (harity : (es.map fun e => e.shape.arity).sum = s.arity) :
    ev.HasValue a ⟨s, .call s.name (es.map Expr.node)⟩ (.ofList s xs) := by
  obtain ⟨vs, hvs, rfl⟩ := h
  have hsum : (vs.map fun v => v.shape.arity).sum = s.arity := by
    rw [Node.map_of_map_shape Shape.arity (shapes_of_hasValue hvs), harity]
  refine ⟨?_, Value.shape_ofList _ _⟩
  rw [eval_constructor hname hvs, Value.construct_eq_ok hsum]
  rfl

/-- Parts that are combined first have the same components together: the value of the inner
combination is made of exactly these. -/
theorem Components.group {before mid after : List Expr} {t : Shape} {inner : Expr}
    (h : ev.Components a (before ++ mid ++ after) xs) (hname : ev.functions.get? t.name = none)
    (hinner : (Combiner.ofList mid).toShape t = .ok inner) :
    ev.Components a (before ++ inner :: after) xs := by
  obtain ⟨harity, rfl⟩ := Combiner.toShape_ofList_eq_ok_iff.mp hinner
  obtain ⟨_, zs, hfirst, hafter, rfl⟩ := components_append_iff.mp h
  obtain ⟨us, ys, hbefore, hmid, rfl⟩ := components_append_iff.mp hfirst
  have hvalue := hasValue_combination hname hmid harity
  have hcomps : (Value.ofList t ys).comps = ys := Value.comps_ofList (hmid.length_eq.trans harity)
  refine components_append_iff.mpr ⟨us, ys ++ zs, hbefore, ?_, (List.append_assoc _ _ _).symm⟩
  rw [← hcomps]
  exact hafter.cons hvalue

/-- **Combining is concatenation.** Expressions that are all there can be lined up. What is lined up can be taken as
a shape iff it has as many components, and is a shape mismatch otherwise, also for a number that names no shape. The
expression that results is of the shape. Wherever the parts evaluate to values of their shapes, and no function is
named like a shape, it evaluates to the value of the shape that has their components, one after the other. So does
every other way to line up the same components, such as combining some of the parts first. -/
theorem combination_concatenates (es : List Expr) :
    Combiner.ofOptions (es.map some) = .ok (Combiner.ofList es) ∧
    (∀ code : ShapeCode, code.shape? = none →
      ∃ err, (Combiner.ofList es).toCode code = .error err ∧ err.isKind .shapeMismatch = true) ∧
    ∀ s : Shape,
      ((∃ e, (Combiner.ofList es).toCode s.code = .ok e) ↔
        (es.map fun e => e.shape.arity).sum = s.arity) ∧
      (∀ err, (Combiner.ofList es).toCode s.code = .error err → err.isKind .shapeMismatch = true) ∧
      ∀ e, (Combiner.ofList es).toCode s.code = .ok e → e.shape = s ∧
        ∀ (a : Arith) (ev : Evaluator) (vs : List Value), (∀ t : Shape, ev.functions.get? t.name = none) →
          List.Forall₂ (ev.HasValue a) es vs →
            ∃ v, ev.eval a e.node = .ok v ∧ v.shape = s ∧ v.comps = vs.flatMap Value.comps ∧
              (∀ i, s.arity ≤ i → v.lane i = 0) ∧
              (∀ es', ev.Components a es' (vs.flatMap Value.comps) →
                ∃ e', (Combiner.ofList es').toCode s.code = .ok e' ∧ ev.eval a e'.node = .ok v) ∧
              ∀ before mid after (t : Shape) inner, es = before ++ mid ++ after →
                (Combiner.ofList mid).toCode t.code = .ok inner →
                  ev.Components a (before ++ inner :: after) (vs.flatMap Value.comps) := by
  refine ⟨Combiner.ofOptions_map_some es, fun code hcode => ?_, fun s => ?_⟩
  · -- a number that names no shape is refused as such
    refine ⟨.cause (.invalidTargetShape code.number), ?_, rfl⟩
    rw [Combiner.toCode, hcode]
  · simp only [Combiner.toCode_code]
    refine ⟨?_, fun err herr => ?_, fun e he => ?_⟩
    · simp [Combiner.toShape_ofList_eq_ok_iff]
    · unfold Combiner.toShape at herr
      split at herr
      · cases herr
      · cases herr
        rfl
    · -- the expression is a call of the constructor
      obtain ⟨harity, rfl⟩ := Combiner.toShape_ofList_eq_ok_iff.mp he
      refine ⟨rfl, fun a ev vs hnames hvs => ?_⟩
      have hcomponents : ev.Components a es (vs.flatMap Value.comps) := ⟨vs, hvs, rfl⟩
      have hlength := hcomponents.length_eq.trans harity
      refine ⟨_, (hasValue_combination (hnames s) hcomponents harity).1, Value.shape_ofList _ _,
        Value.comps_ofList hlength, fun i hi => Value.lane_build_of_le hi _, fun es' hes' => ?_, ?_⟩
      · -- the same components are as many, so they fill the shape as well
        have harity' := hes'.length_eq.symm.trans hlength
        exact ⟨_, Combiner.toShape_ofList_eq_ok_iff.mpr ⟨harity', rfl⟩,
          (hasValue_combination (hnames s) hes' harity').1⟩
      · rintro before mid after t inner rfl hinner
        exact hcomponents.group (hnames t) hinner

/-- An evaluator with a vector and two numbers. -/
def partsEvaluator : Evaluator :=
  ⟨⟨[("p", .ofList .vec2 [1, 2]), ("x", .ofFloat 3), ("y", .ofFloat 4)]⟩, .empty⟩

/-- A vector and two numbers make a matrix, and so they do if the vector and a number are combined
first. -/
theorem combination_concatenates_nested :
    ∀ a : Arith, ∃ e v inner outer,
      (Combiner.ofList [.var "p" .vec2, .var "x" .float, .var "y" .float]).toCode Shape.mat2.code = .ok e ∧
      (Combiner.ofList [.var "p" .vec2, .var "x" .float]).toCode Shape.vec3.code = .ok inner ∧
      (Combiner.ofList [inner, .var "y" .float]).toCode Shape.mat2.code = .ok outer ∧
      partsEvaluator.eval a e.node = .ok v ∧ partsEvaluator.eval a outer.node = .ok v ∧
      v.shape = .mat2 ∧ v.comps = [1, 2, 3, 4] := by
  intro a
  have hvs : List.Forall₂ (partsEvaluator.HasValue a) [.var "p" .vec2, .var "x" .float, .var "y" .float]
      [.ofList .vec2 [1, 2], .ofFloat 3, .ofFloat 4] :=
    .cons ⟨rfl, rfl⟩ (.cons ⟨rfl, rfl⟩ (.cons ⟨rfl, rfl⟩ .nil))
  obtain ⟨_, _, hshapes⟩ :=
    combination_concatenates [.var "p" .vec2, .var "x" .float, .var "y" .float]
  obtain ⟨_, _, hvalue⟩ := hshapes .mat2
  obtain ⟨_, heval⟩ := hvalue _ rfl
  obtain ⟨v, hv, hshape, hcomps, _, hregroup, hgroup⟩ := heval a partsEvaluator _ (fun _ => rfl) hvs
  -- the first two parts are one group, which combines to a vector of its own
  obtain ⟨outer, houter, hv'⟩ := hregroup _
    (hgroup [] [.var "p" .vec2, .var "x" .float] [.var "y" .float] .vec3 _ rfl rfl)
  exact ⟨_, v, _, outer, rfl, rfl, houter, hv, hv', hshape, hcomps⟩

end ShaderExpr.Evaluator
