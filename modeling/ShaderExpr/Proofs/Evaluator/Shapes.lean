import Mathlib.Data.List.Basic
import ShaderExpr.Proofs.Evaluator.Signature
import ShaderExpr.Proofs.Node

/-!
# Evaluation sees shapes, not components

Some built-in functions branch on the components of their operands, but only to decide which components
the result has. Whether there is a result, of which shape it is, and if there is none, which error is
reported, depends on the shapes of the operands alone. So it is with a whole evaluation: two runs that
start from values of the same shapes fail alike or give values of the same shape, even if they compute
with different lane arithmetic.

* **`Agree`** — two computations fail alike or give related results; `Agree.bind` chains it.
* **`Builtin.call_agree`**, **`Value.binary_agree`** — operators, constructors and built-in functions.
* **`Node.eval_agree`** — trees, where calls of user functions agree.
* **`Function.callAt_agree`** — they do, at every depth that calls may nest to.
* **`Evaluator.eval_ignores_components`** — the evaluator as a whole.
-/

namespace ShaderExpr

/-! ## Two computations side by side -/

/-- Two computations fail with the same failure or give related results. -/
inductive Agree {ε α β : Type} (R : α → β → Prop) : Except ε α → Except ε β → Prop where
  | ok {x : α} {y : β} (h : R x y) : Agree R (.ok x) (.ok y)
  | error (e : ε) : Agree R (.error e) (.error e)

namespace Agree

variable {ε ε' α β γ δ : Type} {R : α → β → Prop} {S : γ → δ → Prop}

/-- Computations that agree may be chained, if what follows agrees on related results. -/
theorem bind {x : Except ε α} {y : Except ε β} {f : α → Except ε γ} {g : β → Except ε δ}
    (h : Agree R x y) (hfg : ∀ u v, R u v → Agree S (f u) (g v)) : Agree S (x >>= f) (y >>= g) := by
  cases h with
  | ok h => exact hfg _ _ h
  | error e => exact .error e

theorem mapError {x : Except ε α} {y : Except ε β} (h : Agree R x y) (f : ε → ε') :
    Agree R (x.mapError f) (y.mapError f) := by
  cases h with
  | ok h => exact .ok h
  | error e => exact .error _

theorem exists_ok {x : α} {y : Except ε β} (h : Agree R (.ok x) y) : ∃ v, y = .ok v ∧ R x v := by
  cases h with
  | ok h => exact ⟨_, rfl, h⟩

theorem refl {R : α → α → Prop} (hR : ∀ v, R v v) (x : Except ε α) : Agree R x x := by
  cases x with
  | ok v => exact .ok (hR v)
  | error e => exact .error e

end Agree

/-- Two values have the same shape. -/
def SameShape (v w : Value) : Prop := v.shape = w.shape

/-- Computations that give values of one shape agree, whatever the components are. -/
theorem Agree.of_yields {ε : Type} {r r' : Except ε Value} {s : Shape} (h : Yields r s)
    (h' : Yields r' s) : Agree SameShape r r' := by
  obtain ⟨v, rfl, hv⟩ := h
  obtain ⟨w, rfl, hw⟩ := h'
  exact .ok (hv.trans hw.symm)

/-- Two lists of values have the same shapes in order. -/
def SameShapes (vs ws : List Value) : Prop := vs.map Value.shape = ws.map Value.shape

namespace SameShapes

theorem length_eq {vs ws : List Value} (h : SameShapes vs ws) : vs.length = ws.length := by
  have hlength := congrArg List.length h
  rwa [List.length_map, List.length_map] at hlength

theorem cons_iff {v w : Value} {vs ws : List Value} :
    SameShapes (v :: vs) (w :: ws) ↔ SameShape v w ∧ SameShapes vs ws := by
  unfold SameShapes SameShape
  rw [List.map_cons, List.map_cons, List.cons.injEq]

/-- The first values have the same shape, or there is none in both lists. -/
theorem headD {vs ws : List Value} (h : SameShapes vs ws) :
    SameShape (vs.headD default) (ws.headD default) := by
  cases vs with
  | nil =>
      obtain rfl := List.length_eq_zero_iff.mp h.length_eq.symm
      rfl
  | cons v vs =>
      obtain ⟨w, ws, rfl⟩ := List.exists_cons_of_length_eq_add_one h.length_eq.symm
      exact (cons_iff.mp h).1

theorem exists_one {vs ws : List Value} (h : SameShapes vs ws) (hlength : vs.length = 1) :
    ∃ x x', vs = [x] ∧ ws = [x'] ∧ SameShape x x' := by
  obtain ⟨x, rfl⟩ := List.length_eq_one_iff.mp hlength
  obtain ⟨x', rfl⟩ := List.length_eq_one_iff.mp (h.length_eq.symm.trans hlength)
  exact ⟨x, x', rfl, rfl, (cons_iff.mp h).1⟩

/-- Two lists of the same shapes have two values if one of them does, and so on: functions of a
fixed number of arguments are taken apart on both sides at once. -/
theorem exists_two {vs ws : List Value} (h : SameShapes vs ws) (hlength : vs.length = 2) :
    ∃ x y x' y', vs = [x, y] ∧ ws = [x', y'] ∧ SameShape x x' ∧ SameShape y y' := by
  obtain ⟨x, y, rfl⟩ := List.length_eq_two.mp hlength
  obtain ⟨x', y', rfl⟩ := List.length_eq_two.mp (h.length_eq.symm.trans hlength)
  rw [cons_iff, cons_iff] at h
  exact ⟨x, y, x', y', rfl, rfl, h.1, h.2.1⟩

theorem exists_three {vs ws : List Value} (h : SameShapes vs ws) (hlength : vs.length = 3) :
    ∃ x y z x' y' z', vs = [x, y, z] ∧ ws = [x', y', z'] ∧
      SameShape x x' ∧ SameShape y y' ∧ SameShape z z' := by
  obtain ⟨x, y, z, rfl⟩ := List.length_eq_three.mp hlength
  obtain ⟨x', y', z', rfl⟩ := List.length_eq_three.mp (h.length_eq.symm.trans hlength)
  rw [cons_iff, cons_iff, cons_iff] at h
  exact ⟨x, y, z, x', y', z', rfl, rfl, h.1, h.2.1, h.2.2.1⟩

end SameShapes

/-! ## Operators and constructors -/

namespace Value

variable {x y x' y' : Value}

theorem map_sameShape (f g : Binary32 → Binary32) (hx : SameShape x x') :
    SameShape (x.map f) (x'.map g) := by
  unfold SameShape
  rw [shape_map, shape_map]
  exact hx

/-- Joining looks at the two shapes and at nothing else to decide what to do. -/
theorem zip_agree (f g : Binary32 → Binary32 → Binary32) (hx : SameShape x x') (hy : SameShape y y') :
    Agree SameShape (zip f x y) (zip g x' y') := by
  unfold SameShape at hx hy
  unfold zip
  rw [← hx, ← hy]
  split
  · exact .ok (by simpa [SameShape] using hx)
  · split
    · exact .ok (by simpa [SameShape] using hx)
    · split
      · exact .ok (by simpa [SameShape] using hy)
      · exact .error _

/-- Which product it is, the shapes tell. -/
theorem mult_agree (a a' : Arith) (hx : SameShape x x') (hy : SameShape y y') :
    Agree SameShape (mult a x y) (mult a' x' y') := by
  have hzip := zip_agree a.mul a'.mul hx hy
  unfold SameShape at hx hy
  unfold mult
  rw [← hx, ← hy]
  split
  · exact .ok (by simpa [SameShape] using hx)
  · split
    · exact .ok (by simpa [SameShape] using hy)
    · split
      · exact .ok (by simpa [SameShape] using hx)
      · exact hzip

theorem unary_agree (a a' : Arith) (op : String) (hx : SameShape x x') :
    Agree SameShape (unary a op x) (unary a' op x') := by
  unfold unary
  split
  · exact .ok (by simpa [SameShape] using hx)
  · exact .error _

/-- An operator joins or multiplies, or is unknown to both. -/
theorem binary_agree (a a' : Arith) (op : String) (hx : SameShape x x') (hy : SameShape y y') :
    Agree SameShape (binary a op x y) (binary a' op x' y') := by
  unfold binary
  split
  · exact zip_agree _ _ hx hy
  · exact zip_agree _ _ hx hy
  · exact zip_agree _ _ hx hy
  · exact mult_agree a a' hx hy
  · exact .error _

theorem length_flatMap_comps_congr {vs ws : List Value} (h : SameShapes vs ws) :
    (vs.flatMap comps).length = (ws.flatMap comps).length := by
  have harities := congrArg (List.map Shape.arity) h
  simp only [List.map_map, Function.comp_def] at harities
  rw [length_flatMap_comps, length_flatMap_comps, harities]

/-- A constructor counts components, which the shapes determine. A single number is spread where
more are wanted, and that is told by the shape too. -/
theorem construct_agree (s : Shape) {vs ws : List Value} (h : SameShapes vs ws) :
    Agree SameShape (construct s vs) (construct s ws) := by
  have hconcat : Agree SameShape (concat s vs) (concat s ws) := by
    unfold concat
    simp only [length_flatMap_comps_congr h]
    split
    · exact .error _
    · split
      · exact .error _
      · exact .ok (by simp [SameShape])
  by_cases hone : vs.length = 1
  · -- a single argument may be a number to spread
    obtain ⟨x, x', rfl, rfl, hx⟩ := h.exists_one hone
    unfold construct
    unfold SameShape at hx
    simp only [← hx]
    split
    · exact .ok (by simp [SameShape])
    · exact hconcat
  · -- only a single argument is treated apart
    have heq : ∀ us : List Value, us.length ≠ 1 → construct s us = concat s us := by
      intro us hus
      unfold construct
      split
      · exact absurd rfl hus
      · rfl
    rw [heq vs hone, heq ws (h.length_eq ▸ hone)]
    exact hconcat

end Value

/-! ## Built-in functions -/

namespace Builtin

open Value

variable {x y z x' y' z' : Value} (a a' : Arith)

/-- Whether a name is that of a function of single numbers does not depend on the arithmetic. -/
theorem unary?_rel (f : String) : Option.Rel (fun _ _ => True) (unary? a f) (unary? a' f) := by
  unfold unary?
  split
  all_goals first
    | exact .some trivial
    | exact .none

theorem binary?_rel (f : String) : Option.Rel (fun _ _ => True) (binary? a f) (binary? a' f) := by
  unfold binary?
  split
  all_goals first
    | exact .some trivial
    | exact .none

theorem clamp_agree (hx : SameShape x x') (hy : SameShape y y') (hz : SameShape z z') :
    Agree SameShape (clamp a x y z) (clamp a' x' y' z') :=
  (zip_agree _ _ hx hy).bind fun _ _ h => zip_agree _ _ h hz

/-- Three joins in a row, each on results of the same shapes. -/
theorem mix_agree (hx : SameShape x x') (hy : SameShape y y') (hz : SameShape z z') :
    Agree SameShape (mix a x y z) (mix a' x' y' z') :=
  (zip_agree _ _ hy hx).bind fun _ _ hd =>
    (zip_agree _ _ hd hz).bind fun _ _ hd => zip_agree _ _ hx hd

theorem smoothstep_agree (hx : SameShape x x') (hy : SameShape y y') (hz : SameShape z z') :
    Agree SameShape (smoothstep a x y z) (smoothstep a' x' y' z') := by
  unfold SameShape at hx hy hz
  unfold smoothstep
  rw [← hx, ← hy, ← hz]
  split
  · exact .ok (by simp [SameShape])
  · exact .error _

/-- Which of its two results a refraction has depends on components, but they have one shape. So the
two sides may well take different branches, and only what they yield is compared. -/
theorem refract_agree (hx : SameShape x x') (hy : SameShape y y') (hz : SameShape z z') :
    Agree SameShape (refract a x y z) (refract a' x' y' z') := by
  unfold SameShape at hx hy hz
  by_cases h : (x.shape.isVector && y.shape = x.shape && z.shape = .float) = true
  · have hparts := h
    rw [Bool.and_eq_true, Bool.and_eq_true, decide_eq_true_eq, decide_eq_true_eq] at hparts
    obtain ⟨⟨hvector, hsame⟩, hfloat⟩ := hparts
    -- both give a value of the shape of the first vector
    refine .of_yields (refract_yields hvector hsame hfloat) ?_
    rw [hx] at hvector hsame ⊢
    exact refract_yields hvector (hy.symm.trans hsame) (hz.symm.trans hfloat)
  · -- otherwise both are refused for their shapes
    unfold refract
    rw [← hx, ← hy, ← hz, if_neg h, if_neg h]
    exact .error _

theorem matrixCompMult_agree (hx : SameShape x x') (hy : SameShape y y') :
    Agree SameShape (matrixCompMult a x y) (matrixCompMult a' x' y') := by
  have hzip := zip_agree a.mul a'.mul hx hy
  unfold SameShape at hx hy
  unfold matrixCompMult
  rw [← hx, ← hy]
  split
  · exact hzip
  · exact .error _

theorem cross_agree (hx : SameShape x x') : Agree SameShape (cross a x y) (cross a' x' y') := by
  unfold SameShape at hx
  unfold cross
  rw [← hx]
  split
  · exact .ok (by simp [SameShape])
  · exact .error _

theorem reflect_agree (hx : SameShape x x') (hy : SameShape y y') :
    Agree SameShape (reflect a x y) (reflect a' x' y') := by
  unfold reflect
  exact zip_agree _ _ hx hy

/-- A normal is kept or reversed, which depends on components, and has its shape either way. -/
theorem faceforward_sameShape (hx : SameShape x x') :
    SameShape (faceforward a x y z) (faceforward a' x' y' z') := by
  unfold SameShape
  rw [faceforward_shape, faceforward_shape]
  exact hx

/-- The check of the arguments of a function of vectors looks at their shapes. -/
theorem requireVectors_congr (f : String) (s : Shape) {vs ws : List Value} (h : SameShapes vs ws) :
    requireVectors f s vs = requireVectors f s ws := by
  induction vs generalizing ws with
  | nil =>
      obtain rfl := List.length_eq_zero_iff.mp h.length_eq.symm
      rfl
  | cons v vs ih =>
      obtain ⟨w, ws, rfl⟩ := List.exists_cons_of_length_eq_add_one h.length_eq.symm
      obtain ⟨hv, hvs⟩ := SameShapes.cons_iff.mp h
      unfold SameShape at hv
      unfold requireVectors
      rw [hv, ih hvs]

theorem mixed_agree {f : String} {n : Nat} (hf : mixedArity? f = some n) {vs ws : List Value}
    (h : SameShapes vs ws) (hlength : vs.length = n) :
    Agree SameShape (mixed a f vs) (mixed a' f ws) := by
  unfold mixedArity? at hf
  split at hf
  all_goals cases hf
  · obtain ⟨x, y, z, x', y', z', rfl, rfl, hx, hy, hz⟩ := h.exists_three hlength
    exact clamp_agree a a' hx hy hz
  · obtain ⟨x, y, z, x', y', z', rfl, rfl, hx, hy, hz⟩ := h.exists_three hlength
    exact mix_agree a a' hx hy hz
  · obtain ⟨x, y, z, x', y', z', rfl, rfl, hx, hy, hz⟩ := h.exists_three hlength
    exact smoothstep_agree a a' hx hy hz
  · obtain ⟨x, y, z, x', y', z', rfl, rfl, hx, hy, hz⟩ := h.exists_three hlength
    exact refract_agree a a' hx hy hz
  · obtain ⟨x, y, x', y', rfl, rfl, hx, hy⟩ := h.exists_two hlength
    exact matrixCompMult_agree a a' hx hy

theorem geometric_agree {f : String} {n : Nat} (hf : geometricArity? f = some n) {vs ws : List Value}
    (h : SameShapes vs ws) (hlength : vs.length = n) :
    Agree SameShape (geometric a f vs) (geometric a' f ws) := by
  unfold geometricArity? at hf
  split at hf
  all_goals cases hf
  · obtain ⟨x, y, x', y', rfl, rfl, hx, hy⟩ := h.exists_two hlength
    exact .ok rfl
  · obtain ⟨x, y, x', y', rfl, rfl, hx, hy⟩ := h.exists_two hlength
    exact (zip_agree _ _ hx hy).bind fun _ _ _ => .ok rfl
  · obtain ⟨x, y, x', y', rfl, rfl, hx, hy⟩ := h.exists_two hlength
    exact cross_agree a a' hx
  · obtain ⟨x, y, x', y', rfl, rfl, hx, hy⟩ := h.exists_two hlength
    exact reflect_agree a a' hx hy
  · obtain ⟨x, x', rfl, rfl, hx⟩ := h.exists_one hlength
    exact .ok rfl
  · obtain ⟨x, x', rfl, rfl, hx⟩ := h.exists_one hlength
    exact .ok (map_sameShape _ _ hx)
  · obtain ⟨x, y, z, x', y', z', rfl, rfl, hx, hy, hz⟩ := h.exists_three hlength
    exact .ok (faceforward_sameShape a a' hx)

theorem countError_congr (f : String) (n : Nat) {vs ws : List Value} (h : SameShapes vs ws) :
    countError f n vs = countError f n ws := by
  unfold countError
  rw [h.length_eq]

/-- **Constructors and built-in functions agree on arguments of the same shapes.** A name is looked
for among constructors and then among families of functions in turn, and is found in the same place
on both sides. -/
theorem call_agree (f : String) {vs ws : List Value} (h : SameShapes vs ws) :
    Agree SameShape (call a f vs) (call a' f ws) := by
  have hlength := h.length_eq
  -- a name belongs to the same family of functions under both arithmetics
  have hunary := unary?_rel a a' f
  have hbinary := binary?_rel a a' f
  unfold call
  generalize unary? a f = u at hunary ⊢
  generalize unary? a' f = u' at hunary ⊢
  generalize binary? a f = b at hbinary ⊢
  generalize binary? a' f = b' at hbinary ⊢
  split
  · exact construct_agree _ h
  cases hunary with
  | some _ =>
      by_cases hone : vs.length = 1
      · obtain ⟨x, x', rfl, rfl, hx⟩ := h.exists_one hone
        exact .ok (map_sameShape _ _ hx)
      · rw [countError_congr f 1 h]
        simp only []
        split
        · exact absurd rfl hone
        · split
          · exact absurd hlength hone
          · exact .error _
  | none =>
  -- not a function of one number
  cases hbinary with
  | some _ =>
      by_cases htwo : vs.length = 2
      · obtain ⟨x, y, x', y', rfl, rfl, hx, hy⟩ := h.exists_two htwo
        exact zip_agree _ _ hx hy
      · rw [countError_congr f 2 h]
        simp only []
        split
        · exact absurd rfl htwo
        · split
          · exact absurd hlength htwo
          · exact .error _
  | none =>
  -- nor of two numbers
  simp only [← hlength]
  split
  · next n hn =>
      rw [countError_congr f n h]
      split
      · next hcount => exact mixed_agree a a' hn h hcount
      · exact .error _
  · split
    · next n hn =>
        rw [countError_congr f n h]
        split
        · next hcount =>
            -- the check of the vectors is the same on both sides
            rw [show (vs.headD default).shape = (ws.headD default).shape from h.headD,
              requireVectors_congr f _ h]
            exact (Agree.refl (R := fun _ _ => True) (fun _ => trivial) _).bind fun _ _ _ =>
              geometric_agree a a' hn h hcount
        · exact .error _
    · exact .error _

end Builtin

/-! ## Trees -/

/-- Two environments hold values of the same shapes under the same names. -/
def Env.SameShapes (env env' : Env) : Prop :=
  ∀ name, (env.get? name).map Value.shape = (env'.get? name).map Value.shape

/-- Values of one shape under one name keep the environments alike. -/
theorem Env.SameShapes.insert {env env' : Env} (h : env.SameShapes env') (key : String) {v w : Value}
    (hv : SameShape v w) : Env.SameShapes (env.insert key v) (env'.insert key w) := by
  intro name
  rw [Table.get?_insert, Table.get?_insert]
  split
  · exact congrArg some hv
  · exact h name

/-- Two ways to call user functions know the same names, and calls agree on arguments of the same
shapes. -/
def CallsAgree (call call' : String → Option (List Value → Outcome Value)) : Prop :=
  ∀ name, Option.Rel (fun run run' => ∀ vs ws, SameShapes vs ws → Agree SameShape (run vs) (run' ws))
    (call name) (call' name)

namespace Node

variable {a a' : Arith} {call call' : String → Option (List Value → Outcome Value)} {env env' : Env}

theorem evals_agree {ns : List Node}
    (h : ∀ n ∈ ns, Agree SameShape (n.eval a call env) (n.eval a' call' env')) :
    Agree ShaderExpr.SameShapes (evals a call env ns) (evals a' call' env' ns) := by
  induction ns with
  | nil =>
      rw [evals, evals]
      exact .ok rfl
  | cons n ns ih =>
      rw [evals, evals]
      refine (h n List.mem_cons_self).bind fun v w hv => ?_
      refine (ih fun k hk => h k (List.mem_cons_of_mem _ hk)).bind fun vs ws hvs => ?_
      exact .ok (ShaderExpr.SameShapes.cons_iff.mpr ⟨hv, hvs⟩)

/-- **Trees agree** where calls of user functions and environments do. Induction over the tree. -/
theorem eval_agree (hcall : CallsAgree call call') (henv : env.SameShapes env') (n : Node) :
    Agree SameShape (n.eval a call env) (n.eval a' call' env') := by
  induction n using Node.induction with
  | literal s =>
      -- the value of a literal is in its text
      rw [eval, eval]
      exact .refl (R := SameShape) (fun _ => rfl) _
  | var s =>
      rw [eval, eval, Env.lookup, Env.lookup]
      -- the name has a value in both environments or in none
      have hname := henv s
      split
      · next v hv =>
          rw [hv] at hname
          obtain ⟨w, hw, hshape⟩ := Option.map_eq_some_iff.mp hname.symm
          rw [hw]
          exact .ok hshape.symm
      · next hv =>
          rw [hv] at hname
          rw [Option.map_eq_none_iff.mp hname.symm]
          exact .error _
  | call f args ih =>
      rw [eval, eval]
      refine (evals_agree ih).bind fun vs ws hvs => ?_
      have hf := hcall f
      generalize call f = run at hf ⊢
      generalize call' f = run' at hf ⊢
      cases hf with
      | some hrun => exact hrun vs ws hvs
      | none => exact (Builtin.call_agree a a' f hvs).mapError _
  | unary op x ih =>
      rw [eval, eval]
      exact ih.bind fun v w hv => (Value.unary_agree a a' op hv).mapError _
  | binary op x y ihx ihy =>
      rw [eval, eval]
      exact ihx.bind fun v w hv => ihy.bind fun v' w' hv' =>
        (Value.binary_agree a a' op hv hv').mapError _
  | missing =>
      rw [eval, eval]
      exact .error _

end Node

/-! ## User functions -/

namespace Function

/-- Arguments are checked for the names of their shapes. -/
theorem bindArguments_agree (fn : Function) {ps : List Param} {vs ws : List Value} {env env' : Env}
    (h : SameShapes vs ws) (henv : env.SameShapes env') :
    Agree Env.SameShapes (fn.bindArguments ps vs env) (fn.bindArguments ps ws env') := by
  induction ps generalizing vs ws env env' with
  | nil => exact .ok henv
  | cons p ps ih =>
      cases vs with
      | nil =>
          obtain rfl := List.length_eq_zero_iff.mp h.length_eq.symm
          exact .ok henv
      | cons v vs =>
          obtain ⟨w, ws, rfl⟩ := List.exists_cons_of_length_eq_add_one h.length_eq.symm
          obtain ⟨hv, hvs⟩ := SameShapes.cons_iff.mp h
          rw [bindArguments, bindArguments, show w.shape = v.shape from hv.symm]
          split
          · exact ih hvs (henv.insert p.name hv)
          · exact .error _

theorem runBody_agree (fn : Function) {eval eval' : Env → Node → Outcome Value}
    (heval : ∀ env env', Env.SameShapes env env' → ∀ n, Agree SameShape (eval env n) (eval' env' n))
    {sts : List Statement} {env env' : Env} (henv : env.SameShapes env') :
    Agree Env.SameShapes (fn.runBody eval sts env) (fn.runBody eval' sts env') := by
  induction sts generalizing env env' with
  | nil => exact .ok henv
  | cons st sts ih =>
      rw [runBody, runBody]
      exact ((heval env env' henv st.value).mapError _).bind fun v w hv =>
        ih (henv.insert st.name hv)

/-- A function agrees with itself if evaluation does: it checks the number of its arguments, takes
them, runs its body and evaluates its result. -/
theorem run_agree (fn : Function) {eval eval' : Env → Node → Outcome Value}
    (heval : ∀ env env', Env.SameShapes env env' → ∀ n, Agree SameShape (eval env n) (eval' env' n))
    {vs ws : List Value} (h : SameShapes vs ws) :
    Agree SameShape (fn.run eval vs) (fn.run eval' ws) := by
  unfold run
  rw [h.length_eq]
  split
  · exact .error _
  · refine ((fn.bindArguments_agree h fun _ => rfl).mapError _).bind fun env env' henv => ?_
    refine (fn.runBody_agree heval henv).bind fun env env' henv => ?_
    exact heval env env' henv fn.result

/-- **Calls agree at every depth**, by induction on it: a call evaluates the body one level
deeper. -/
theorem callAt_agree (a a' : Arith) (fns : Table Function) (depth : Nat) :
    CallsAgree (callAt a fns depth) (callAt a' fns depth) := by
  induction depth with
  | zero =>
      intro name
      rw [callAt, callAt]
      cases fns.get? name with
      | none => exact .none
      | some fn => exact .some fun _ _ _ => .error _
  | succ depth ih =>
      intro name
      rw [callAt, callAt]
      cases fns.get? name with
      | none => exact .none
      | some fn =>
          exact .some fun vs ws h => fn.run_agree (fun _ _ henv n => Node.eval_agree ih henv n) h

end Function

/-! ## The evaluator -/

namespace Evaluator

/-- **Evaluation ignores components.** On environments that hold values of the same shapes under the
same names, any tree, typed or not, fails with one and the same failure, or evaluates to values of the
same shape. The lane operations may be any functions, even different ones in the two evaluations. -/
theorem eval_ignores_components (a a' : Arith) (fns : Table Function) {env env' : Env}
    (henv : ∀ name, (env.get? name).map Value.shape = (env'.get? name).map Value.shape) (n : Node) :
    (∃ e, eval a ⟨env, fns⟩ n = .error e ∧ eval a' ⟨env', fns⟩ n = .error e) ∨
      ∃ v w, eval a ⟨env, fns⟩ n = .ok v ∧ eval a' ⟨env', fns⟩ n = .ok w ∧ v.shape = w.shape := by
  have hagree : Agree SameShape (eval a ⟨env, fns⟩ n) (eval a' ⟨env', fns⟩ n) :=
    Node.eval_agree (Function.callAt_agree a a' fns (depth fns)) henv n
  generalize eval a ⟨env, fns⟩ n = r at hagree ⊢
  generalize eval a' ⟨env', fns⟩ n = r' at hagree ⊢
  cases hagree with
  | ok hshape => exact .inr ⟨_, _, rfl, rfl, hshape⟩
  | error e => exact .inl ⟨e, rfl, rfl⟩

/-- A call that branches on the components of its arguments. -/
def facing : Node := .call "faceforward" [.var "n", .var "n", .var "n"]

/-- Whether a normal is reversed depends on components, in whatever way the arithmetic has it, and
the shape of what is evaluated does not. -/
theorem eval_ignores_components_facing :
    (∀ name, ((⟨[("n", .zero .vec3)]⟩ : Env).get? name).map Value.shape =
      ((⟨[("n", .spread .vec3 1)]⟩ : Env).get? name).map Value.shape) ∧
    ∀ a : Arith, ∃ v w, eval a ⟨⟨[("n", .zero .vec3)]⟩, .empty⟩ facing = .ok v ∧
      eval a ⟨⟨[("n", .spread .vec3 1)]⟩, .empty⟩ facing = .ok w ∧ v.shape = w.shape := by
  have henv : ∀ name, ((⟨[("n", .zero .vec3)]⟩ : Env).get? name).map Value.shape =
      ((⟨[("n", .spread .vec3 1)]⟩ : Env).get? name).map Value.shape := by
    intro name
    by_cases hname : "n" = name
    · rw [← hname]
      rfl
    · unfold Table.get? Table.find?
      rw [if_neg hname, if_neg hname]
  refine ⟨henv, fun a => ?_⟩
  rcases eval_ignores_components a a .empty henv facing with ⟨e, he, _⟩ | hvalues
  · cases he
  · exact hvalues

end Evaluator

end ShaderExpr
