import ShaderExpr.Evaluator
import ShaderExpr.Proofs.Value

/-!
# The catalog agrees with evaluation

The shape rules of operations are written twice: once as signatures of the catalog, which decide which
expressions can be built, and once in the functions on values, each of which looks at the shapes of its
operands itself. Here the two are compared. On a receiver and operands of the shapes that the catalog
asks for, every operation evaluates, and to a value of the shape that the catalog promises.

* **`Yields`** — a computation gives a value of a shape.
* **`zip_yields`**, **`mult_yields`** — what the two ways of joining values accept.
* **`Operation.compute`** — evaluation of an operation on values, written as the catalog says.
* **`Operation.compute_yields`** — the agreement, one case for each operation.
-/

namespace ShaderExpr

/-- The computation gives a value, and it has the shape. -/
def Yields {ε : Type} (r : Except ε Value) (s : Shape) : Prop := ∃ v, r = .ok v ∧ v.shape = s

theorem Yields.ok {ε : Type} {v : Value} {s : Shape} (h : v.shape = s) :
    Yields (.ok v : Except ε Value) s :=
  ⟨v, rfl, h⟩

theorem Yields.bind {ε : Type} {r : Except ε Value} {f : Value → Except ε Value} {s t : Shape}
    (h : Yields r s) (hf : ∀ v, v.shape = s → Yields (f v) t) : Yields (r >>= f) t := by
  obtain ⟨v, rfl, hv⟩ := h
  exact hf v hv

/-! ## Joining values -/

namespace Value

variable {f : Binary32 → Binary32 → Binary32} {x y : Value}

/-- An operand of the same shape, or a single number, is joined to every component. The two rules
are the same function of the components. -/
theorem zip_eq_ok (h : y.shape = x.shape ∨ y.shape = .float) :
    zip f x y = .ok (x.mapIdx fun i c => f c (y.component i)) := by
  unfold zip
  by_cases hsame : x.shape = y.shape
  · rw [if_pos hsame, Except.ok.injEq]
    exact mapIdx_congr fun i hi => by rw [component_eq_lane (hsame ▸ hi)]
  · have hfloat : y.shape = .float := h.resolve_left fun heq => hsame heq.symm
    rw [if_neg hsame, if_pos hfloat]
    simp only [component, hfloat, if_true]
    rfl

theorem zip_yields (h : y.shape = x.shape ∨ y.shape = .float) : Yields (zip f x y) x.shape :=
  ⟨_, zip_eq_ok h, shape_mapIdx _ x⟩

/-- A column of a matrix is another shape than the matrix, and not a number. -/
theorem column_ne {s : Shape} (h : s.isMatrix = true) : s.column ≠ s ∧ s.column ≠ .float := by
  revert h
  cases s <;> decide

/-- A factor of the same shape or a number is joined component by component, if it is not a matrix.
The rules for products of matrices come first and do not apply. -/
theorem mult_eq_zip (a : Arith) (h : y.shape = x.shape ∨ y.shape = .float)
    (hproduct : ¬ (x.shape.isMatrix = true ∧ y.shape = x.shape)) : mult a x y = zip a.mul x y := by
  -- neither a matrix with a column nor a column with a matrix is a factor of this kind
  have hcolumn : ¬ (x.shape.isMatrix = true ∧ y.shape = x.shape.column) := by
    rintro ⟨hmatrix, hcolumn⟩
    obtain ⟨hself, hfloat⟩ := column_ne hmatrix
    rcases h with h | h
    · exact hself (hcolumn.symm.trans h)
    · exact hfloat (hcolumn.symm.trans h)
  have hrow : ¬ (y.shape.isMatrix = true ∧ x.shape = y.shape.column) := by
    rintro ⟨hmatrix, hrow⟩
    rcases h with h | h
    · exact (column_ne hmatrix).1 (hrow.symm.trans h.symm)
    · rw [h] at hmatrix
      cases hmatrix
  unfold mult
  simp only [Bool.and_eq_true, decide_eq_true_eq, hproduct, hcolumn, hrow, if_false]

/-- A factor of the same shape or a number gives a product of the shape of the receiver. -/
theorem mult_yields (a : Arith) (h : y.shape = x.shape ∨ y.shape = .float) :
    Yields (mult a x y) x.shape := by
  by_cases hproduct : x.shape.isMatrix = true ∧ y.shape = x.shape
  · unfold mult
    rw [if_pos (by simp [hproduct])]
    exact .ok (shape_matMul a x y)
  · rw [mult_eq_zip a h hproduct]
    exact zip_yields h

theorem mult_eq_matVec (a : Arith) (hx : x.shape.isMatrix = true) (hy : y.shape = x.shape.column) :
    mult a x y = .ok (matVec a x y) := by
  unfold mult
  rw [hx, hy]
  simp only [Bool.true_and, decide_eq_true_eq, (column_ne hx).1, if_false, if_true]

theorem mult_yields_column (a : Arith) (hx : x.shape.isMatrix = true)
    (hy : y.shape = x.shape.column) : Yields (mult a x y) x.shape.column := by
  rw [mult_eq_matVec a hx hy]
  exact .ok ((shape_matVec a x y).trans hy)

end Value

/-! ## Built-in functions -/

namespace Builtin

open Value

variable {a : Arith} {x y z : Value}

theorem clamp_yields (hy : y.shape = x.shape) (hz : z.shape = x.shape) :
    Yields (clamp a x y z) x.shape := by
  refine (zip_yields (.inl hy)).bind fun v hv => ?_
  rw [← hv]
  exact zip_yields (.inl (hz.trans hv.symm))

/-- The difference is scaled by a number before it is added. -/
theorem mix_yields (hy : y.shape = x.shape) (hz : z.shape = .float) :
    Yields (mix a x y z) x.shape := by
  refine (zip_yields (.inl hy.symm)).bind fun v hv => ?_
  refine (zip_yields (.inr hz)).bind fun w hw => ?_
  exact zip_yields (.inl (hw.trans (hv.trans hy)))

theorem smoothstep_yields (hx : x.shape = z.shape) (hy : y.shape = z.shape) :
    Yields (smoothstep a x y z) z.shape := by
  unfold smoothstep
  rw [if_pos ⟨hx.trans hy.symm, .inl hx⟩]
  exact .ok (shape_build _ _)

/-- Both branches give a vector of the shape: zero, or a difference of vectors. -/
theorem refract_yields (hx : x.shape.isVector = true) (hy : y.shape = x.shape)
    (hz : z.shape = .float) : Yields (refract a x y z) x.shape := by
  unfold refract
  rw [if_pos (by simp [hx, hy, hz])]
  simp only []
  split
  · exact .ok (by rw [zero, shape_build])
  · exact zip_yields (.inl hy)

theorem matrixCompMult_yields (hx : x.shape.isMatrix = true) (hy : y.shape = x.shape) :
    Yields (matrixCompMult a x y) x.shape := by
  unfold matrixCompMult
  rw [if_pos (by simp [hx, hy])]
  exact zip_yields (.inl hy)

theorem cross_yields (hx : x.shape = .vec3) : Yields (cross a x y) x.shape := by
  unfold cross
  rw [if_pos hx, hx]
  exact .ok (shape_ofList _ _)

theorem reflect_yields (hy : y.shape = x.shape) : Yields (reflect a x y) x.shape := by
  unfold reflect
  exact zip_yields (.inl hy)

theorem faceforward_shape : (faceforward a x y z).shape = x.shape := by
  unfold faceforward
  split
  · rfl
  · exact shape_map _ x

/-- Functions of vectors accept vectors of one shape. -/
theorem requireVectors_eq_ok {f : String} {s : Shape} (hs : s.isVector = true) {vs : List Value}
    (h : ∀ v ∈ vs, v.shape = s) : requireVectors f s vs = .ok () := by
  induction vs with
  | nil => rfl
  | cons v vs ih =>
      unfold requireVectors
      rw [if_pos (by simp [h v List.mem_cons_self, hs])]
      exact ih fun w hw => h w (List.mem_cons_of_mem _ hw)

/-- A function of vectors gives on vectors of one shape what it gives after the check of its
arguments. That the function is one of vectors is the hypothesis on how it is called. -/
theorem call_geometric_yields {f : String} {vs : List Value} {s : Shape}
    (hf : call a f (x :: vs) =
      requireVectors f x.shape (x :: vs) >>= fun _ => geometric a f (x :: vs))
    (hx : x.shape.isVector = true) (hvs : ∀ v ∈ vs, v.shape = x.shape)
    (h : Yields (geometric a f (x :: vs)) s) : Yields (call a f (x :: vs)) s := by
  have hall : ∀ v ∈ x :: vs, v.shape = x.shape := by
    intro v hv
    rcases List.mem_cons.mp hv with rfl | hv
    · rfl
    · exact hvs v hv
  rw [hf, requireVectors_eq_ok hx hall]
  exact h

end Builtin

/-! ## Operations -/

def Form.isCall : Form → Bool
  | .call | .callLast => true
  | .between | .before => false

namespace Operation

/-- The value of an operation on values, from how the catalog says that it is written. -/
def compute (a : Arith) (op : Operation) (x : Value) (vs : List Value) : Except Error Value :=
  match op.entry.form with
  | .call => Builtin.call a op.symbol (x :: vs)
  | .callLast => Builtin.call a op.symbol (vs ++ [x])
  | .between => Value.binary a op.symbol x (vs.headD default)
  | .before => Value.unary a op.symbol x

/-- The signature on a receiver: it is there if the catalog lists the shape, and its operands and
result are resolved from it. -/
theorem signature?_eq_some_iff {op : Operation} {s : Shape} {sig : Signature} :
    op.signature? s = some sig ↔
      s ∈ op.entry.shapes ∧
        sig = ⟨op.entry.args.map (Operand.resolve s), op.entry.result.resolve s⟩ := by
  unfold signature? supports
  by_cases h : s ∈ op.entry.shapes
  · rw [if_pos (List.contains_iff_mem.mpr h), Option.some.injEq]
    exact ⟨fun heq => ⟨h, heq.symm⟩, fun heq => heq.2.symm⟩
  · rw [if_neg (mt List.contains_iff_mem.mp h)]
    exact ⟨nofun, fun heq => absurd heq.1 h⟩

theorem exists_of_map_shape_eq_one {vs : List Value} {s : Shape} (h : vs.map Value.shape = [s]) :
    ∃ y, vs = [y] ∧ y.shape = s := by
  obtain ⟨y, ys, rfl, hy, hys⟩ := List.map_eq_cons_iff.mp h
  rw [List.map_eq_nil_iff.mp hys]
  exact ⟨y, rfl, hy⟩

theorem exists_of_map_shape_eq_two {vs : List Value} {s t : Shape}
    (h : vs.map Value.shape = [s, t]) : ∃ y z, vs = [y, z] ∧ y.shape = s ∧ z.shape = t := by
  obtain ⟨y, ys, rfl, hy, hys⟩ := List.map_eq_cons_iff.mp h
  obtain ⟨z, rfl, hz⟩ := exists_of_map_shape_eq_one hys
  exact ⟨y, z, rfl, hy, hz⟩

theorem isVector_of_mem {s : Shape} (h : s ∈ vectorShapes) : s.isVector = true := by
  revert h
  cases s <;> decide

theorem isMatrix_of_mem {s : Shape} (h : s ∈ matrixShapes) : s.isMatrix = true := by
  revert h
  cases s <;> decide

/-- **Catalog and evaluation agree.** On operands of the shapes of its signature an operation
evaluates to a value of its result shape. One case for each operation, grouped where evaluation
treats them alike. -/
theorem compute_yields (a : Arith) {op : Operation} {x : Value} {vs : List Value} {sig : Signature}
    (hsig : op.signature? x.shape = some sig) (hvs : vs.map Value.shape = sig.args) :
    Yields (op.compute a x vs) sig.result := by
  obtain ⟨hshape, rfl⟩ := signature?_eq_some_iff.mp hsig
  cases op with
  | neg | sin | cos | tan | exp | log | sqrt | abs | floor | fract =>
      obtain rfl := List.map_eq_nil_iff.mp hvs
      exact ⟨_, rfl, Value.shape_map _ x⟩
  | add | sub | div | mod | pow | min | max =>
      obtain ⟨y, rfl, (hy : y.shape = x.shape)⟩ := exists_of_map_shape_eq_one hvs
      show Yields (Value.zip _ x y) x.shape
      exact Value.zip_yields (.inl hy)
  | mult =>
      obtain ⟨y, rfl, (hy : y.shape = x.shape)⟩ := exists_of_map_shape_eq_one hvs
      show Yields (Value.mult a x y) x.shape
      exact Value.mult_yields a (.inl hy)
  | scale =>
      obtain ⟨y, rfl, (hy : y.shape = .float)⟩ := exists_of_map_shape_eq_one hvs
      show Yields (Value.mult a x y) x.shape
      exact Value.mult_yields a (.inr hy)
  | transform =>
      obtain ⟨y, rfl, (hy : y.shape = x.shape.column)⟩ := exists_of_map_shape_eq_one hvs
      show Yields (Value.mult a x y) x.shape.column
      exact Value.mult_yields_column a (isMatrix_of_mem hshape) hy
  | step =>
      obtain ⟨y, rfl, (hy : y.shape = x.shape)⟩ := exists_of_map_shape_eq_one hvs
      -- the receiver is the last argument, and the first one gives the shape
      show Yields (Value.zip a.step y x) x.shape
      rw [← hy]
      exact Value.zip_yields (.inl hy.symm)
  | clamp =>
      obtain ⟨y, z, rfl, (hy : y.shape = x.shape), (hz : z.shape = x.shape)⟩ :=
        exists_of_map_shape_eq_two hvs
      show Yields (Builtin.clamp a x y z) x.shape
      exact Builtin.clamp_yields hy hz
  | mix =>
      obtain ⟨y, z, rfl, (hy : y.shape = x.shape), (hz : z.shape = .float)⟩ :=
        exists_of_map_shape_eq_two hvs
      show Yields (Builtin.mix a x y z) x.shape
      exact Builtin.mix_yields hy hz
  | smoothstep =>
      obtain ⟨y, z, rfl, (hy : y.shape = x.shape), (hz : z.shape = x.shape)⟩ :=
        exists_of_map_shape_eq_two hvs
      -- the edges come first and the receiver last
      show Yields (Builtin.smoothstep a y z x) x.shape
      exact Builtin.smoothstep_yields hy hz
  | refract =>
      obtain ⟨y, z, rfl, (hy : y.shape = x.shape), (hz : z.shape = .float)⟩ :=
        exists_of_map_shape_eq_two hvs
      show Yields (Builtin.refract a x y z) x.shape
      exact Builtin.refract_yields (isVector_of_mem hshape) hy hz
  | matrixCompMult =>
      obtain ⟨y, rfl, (hy : y.shape = x.shape)⟩ := exists_of_map_shape_eq_one hvs
      show Yields (Builtin.matrixCompMult a x y) x.shape
      exact Builtin.matrixCompMult_yields (isMatrix_of_mem hshape) hy
  | length =>
      obtain rfl := List.map_eq_nil_iff.mp hvs
      show Yields (Builtin.call a "length" [x]) .float
      exact Builtin.call_geometric_yields rfl (isVector_of_mem hshape) nofun ⟨_, rfl, rfl⟩
  | normalize =>
      obtain rfl := List.map_eq_nil_iff.mp hvs
      show Yields (Builtin.call a "normalize" [x]) x.shape
      exact Builtin.call_geometric_yields rfl (isVector_of_mem hshape) nofun
        ⟨_, rfl, Value.shape_map _ x⟩
  | dot =>
      obtain ⟨y, rfl, (hy : y.shape = x.shape)⟩ := exists_of_map_shape_eq_one hvs
      show Yields (Builtin.call a "dot" [x, y]) .float
      refine Builtin.call_geometric_yields rfl (isVector_of_mem hshape) (by simpa using hy) ?_
      exact ⟨_, rfl, rfl⟩
  | distance =>
      obtain ⟨y, rfl, (hy : y.shape = x.shape)⟩ := exists_of_map_shape_eq_one hvs
      show Yields (Builtin.call a "distance" [x, y]) .float
      refine Builtin.call_geometric_yields rfl (isVector_of_mem hshape) (by simpa using hy) ?_
      show Yields (Value.zip a.sub x y >>= fun d => .ok (.ofFloat (Value.length a d))) .float
      exact (Value.zip_yields (.inl hy)).bind fun _ _ => .ok (Value.shape_ofList _ _)
  | reflect =>
      obtain ⟨y, rfl, (hy : y.shape = x.shape)⟩ := exists_of_map_shape_eq_one hvs
      show Yields (Builtin.call a "reflect" [x, y]) x.shape
      refine Builtin.call_geometric_yields rfl (isVector_of_mem hshape) (by simpa using hy) ?_
      exact Builtin.reflect_yields hy
  | cross =>
      obtain ⟨y, rfl, (hy : y.shape = x.shape)⟩ := exists_of_map_shape_eq_one hvs
      -- the catalog offers cross products of three components only
      have hvec3 : x.shape = .vec3 := List.mem_singleton.mp hshape
      show Yields (Builtin.call a "cross" [x, y]) x.shape
      refine Builtin.call_geometric_yields rfl (by rw [hvec3]; rfl) (by simpa using hy) ?_
      exact Builtin.cross_yields hvec3
  | faceforward =>
      obtain ⟨y, z, rfl, (hy : y.shape = x.shape), (hz : z.shape = x.shape)⟩ :=
        exists_of_map_shape_eq_two hvs
      show Yields (Builtin.call a "faceforward" [x, y, z]) x.shape
      refine Builtin.call_geometric_yields rfl (isVector_of_mem hshape) (by simpa using ⟨hy, hz⟩) ?_
      exact .ok Builtin.faceforward_shape

theorem op?_code (op : Operation) : op.code.op? = some op := by
  cases op <;> rfl

theorem length_args_of_between {op : Operation} (h : op.entry.form = .between) :
    op.entry.args.length = 1 := by
  revert h
  cases op <;> decide

end Operation

end ShaderExpr
