import ShaderExpr.Proofs.Evaluator.Expression
import ShaderExpr.Proofs.Literal.RoundTrip

/-!
# Products of matrices

A matrix is multiplied by a matrix, by a column on its right or by a row on its left, and vectors have a dot
product. Each of these is a loop with index computations of its own over the columns that a matrix is kept in. Rounded
addition is not associative, so they agree exactly only if they also add in the same order. Here every one of them is
brought to the same form, a sum of products of entries by row and column, added from zero on; nothing is used about
the addition and multiplication of numbers.

* **`entry`**, **`column`**, **`transpose`** — a matrix by row and column.
* **`matMul_eq_build`**, **`matVec_eq_build`**, **`vecMat_eq_build`** — the products by entries.
* **`column_matMul`**, **`lane_vecMat`**, **`vecMat_eq_matVec_transpose`** — how they are related.
* **`Evaluator.matrix_products_agree`** — the relations between evaluated products.
-/

namespace ShaderExpr

namespace Value

/-! ## Rows and columns -/

/-- The entry of a matrix in a row and a column. -/
def entry (m : Value) (row col : Nat) : Binary32 := m.lane (col * m.shape.column.arity + row)

/-- A column of a matrix. -/
def column (m : Value) (col : Nat) : Value := build m.shape.column fun row => m.entry row col

/-- The matrix with rows and columns exchanged. -/
def transpose (m : Value) : Value :=
  build m.shape fun i => m.entry (i / m.shape.column.arity) (i % m.shape.column.arity)

variable {m m' x : Value} {row col : Nat}

@[simp] theorem shape_column (m : Value) (col : Nat) : (m.column col).shape = m.shape.column := by
  rw [column, shape_build]

@[simp] theorem shape_transpose (m : Value) : m.transpose.shape = m.shape := by
  rw [transpose, shape_build]

theorem lane_column (hrow : row < m.shape.column.arity) (col : Nat) :
    (m.column col).lane row = m.entry row col := by
  rw [column, lane_build hrow]

/-- An entry of a matrix that is built by index, from the index of the entry. -/
theorem entry_build {s : Shape} (hs : s.isMatrix = true) (hrow : row < s.column.arity)
    (hcol : col < s.column.arity) (f : Nat → Binary32) :
    (build s f).entry row col = f (col * s.column.arity + row) := by
  have hlt : col * s.column.arity + row < s.arity := by
    rw [← column_arity_mul hs]
    exact Literal.lt_square hcol hrow
  rw [entry, shape_build, lane_build hlt]

/-- Transposing exchanges row and column of every entry. -/
theorem entry_transpose (hm : m.shape.isMatrix = true) (hrow : row < m.shape.column.arity)
    (hcol : col < m.shape.column.arity) : m.transpose.entry row col = m.entry col row := by
  obtain ⟨hdiv, hmod⟩ := Literal.div_mod_of_lt hrow col
  rw [transpose, entry_build hm hrow hcol, hdiv, hmod]

/-- What a function gives beyond the shape is of no matter. -/
theorem build_congr {s : Shape} {f g : Nat → Binary32} (h : ∀ i < s.arity, f i = g i) :
    build s f = build s g := by
  unfold build
  congr 2
  funext i
  split
  · next hi => exact h i hi
  · rfl

/-- Sums of the same terms in the same order are the same, whatever addition does. -/
theorem sumBelow_congr {a : Arith} {n : Nat} {f g : Nat → Binary32} (h : ∀ k < n, f k = g k) :
    sumBelow a n f = sumBelow a n g := by
  refine List.foldl_ext _ _ _ fun sum k hk => ?_
  rw [h k (List.mem_range.mp hk)]

/-! ## Products by entries

The loops read lanes. Once the shapes of both factors are known to fit, these are the lanes of the entries. -/

variable (a : Arith)

/-- The product of matrices, by entries: the index gives row and column of the result. -/
theorem matMul_eq_build (hshape : m'.shape = m.shape) :
    matMul a m m' = build m.shape fun i => sumBelow a m.shape.column.arity fun k =>
      a.mul (m.entry (i % m.shape.column.arity) k) (m'.entry k (i / m.shape.column.arity)) := by
  unfold matMul entry
  rw [hshape]

theorem matVec_eq_build (hx : x.shape = m.shape.column) :
    matVec a m x = build m.shape.column fun row => sumBelow a m.shape.column.arity fun k =>
      a.mul (m.entry row k) (x.lane k) := by
  unfold matVec entry
  rw [hx]

/-- The product of a row and a matrix, by entries, with the factors in this order. -/
theorem vecMat_eq_build (hx : x.shape = m.shape.column) :
    vecMat a x m = build m.shape.column fun col => sumBelow a m.shape.column.arity fun k =>
      a.mul (x.lane k) (m.entry k col) := by
  unfold vecMat entry
  rw [hx]

/-- **A column of a product is the product with the column**: the same terms, added in the same
order. -/
theorem column_matMul (hm : m.shape.isMatrix = true) (hshape : m'.shape = m.shape)
    (hcol : col < m.shape.column.arity) : (matMul a m m').column col = matVec a m (m'.column col) := by
  rw [matVec_eq_build a (by rw [shape_column, hshape]), column, shape_matMul]
  refine build_congr fun row hrow => ?_
  obtain ⟨hdiv, hmod⟩ := Literal.div_mod_of_lt hrow col
  rw [matMul_eq_build a hshape, entry_build hm hrow hcol, hdiv, hmod]
  refine sumBelow_congr fun k hk => ?_
  rw [lane_column (by rwa [hshape])]

/-- **A component of the product of a row and a matrix is the dot product with a column.** -/
theorem lane_vecMat (hx : x.shape = m.shape.column) (hcol : col < m.shape.column.arity) :
    (vecMat a x m).lane col = dot a x (m.column col) := by
  rw [vecMat_eq_build a hx, lane_build hcol, dot, hx]
  refine sumBelow_congr fun k hk => ?_
  rw [lane_column hk]

/-- A row times a matrix is the transposed matrix times the row as a column. The factors change
places, and the terms are added in the same order. -/
theorem vecMat_eq_matVec_transpose (hcomm : ∀ u v, a.mul u v = a.mul v u) (hm : m.shape.isMatrix = true)
    (hx : x.shape = m.shape.column) : vecMat a x m = matVec a m.transpose x := by
  rw [vecMat_eq_build a hx, matVec_eq_build a (by rw [shape_transpose, hx]), shape_transpose]
  refine build_congr fun col hcol => sumBelow_congr fun k hk => ?_
  rw [entry_transpose hm hcol hk, hcomm]

/-! ## Which product it is -/

/-- Matrices of one shape are multiplied as matrices, not entry by entry. -/
theorem mult_eq_matMul (hm : m.shape.isMatrix = true) (hshape : m'.shape = m.shape) :
    mult a m m' = .ok (matMul a m m') := by
  unfold mult
  rw [if_pos (by simp [hm, hshape])]

/-- A vector before a matrix is taken as a row. The two checks before this one ask for a matrix
first. -/
theorem mult_eq_vecMat (hm : m.shape.isMatrix = true) (hx : x.shape = m.shape.column) :
    mult a x m = .ok (vecMat a x m) := by
  have hrow : x.shape.isMatrix = false := by
    rw [hx]
    cases hs : m.shape <;> rfl
  unfold mult
  rw [hrow, hm, if_neg (by simp), if_neg (by simp), if_pos (by simp [hx])]

end Value

/-- The dot product of vectors of one shape; the check of the operands comes first. -/
theorem Builtin.call_dot (a : Arith) {x y : Value} (hx : x.shape.isVector = true) (hy : y.shape = x.shape) :
    call a "dot" [x, y] = .ok (.ofFloat (x.dot a y)) := by
  have hall : ∀ v ∈ [x, y], v.shape = x.shape := by simp [hy]
  show (requireVectors "dot" x.shape [x, y] >>= fun _ => geometric a "dot" [x, y]) = _
  rw [requireVectors_eq_ok hx hall]
  rfl

namespace Evaluator

/-! ## Evaluated products -/

/-- Wherever two trees evaluate to the factors, their product evaluates to the value. -/
def Multiplies (a : Arith) (x y w : Value) : Prop :=
  ∀ (ev : Evaluator) (p q : Node), ev.eval a p = .ok x → ev.eval a q = .ok y →
    ev.eval a (.binary "*" p q) = .ok w

/-- Wherever two trees evaluate to the vectors, and no function hides the dot product, it evaluates to the number. -/
def Dots (a : Arith) (x y : Value) (d : Binary32) : Prop :=
  ∀ (ev : Evaluator) (p q : Node), ev.functions.get? "dot" = none → ev.eval a p = .ok x →
    ev.eval a q = .ok y → ev.eval a (.call "dot" [p, q]) = .ok (.ofFloat d)

variable {a : Arith} {x y w : Value}

/-- The operator evaluates both sides and multiplies. -/
theorem multiplies_of_mult (h : x.mult a y = .ok w) : Multiplies a x y w := by
  intro ev p q hp hq
  unfold eval evalIn at *
  rw [Node.eval, hp, hq]
  show Outcome.ofError (x.mult a y) = _
  rw [h]
  rfl

/-- The dot product is written as a call, so a function of its name would come first. -/
theorem dots_of_call {d : Binary32} (h : Builtin.call a "dot" [x, y] = .ok (.ofFloat d)) : Dots a x y d := by
  intro ev p q hname hp hq
  have hcall : Function.callAt a ev.functions (depth ev.functions) "dot" = none :=
    Library.callAt_eq_none hname _
  have hargs := evals_eq_ok (List.Forall₂.cons hp (List.Forall₂.cons hq .nil))
  unfold eval evalIn
  rw [Node.eval, hargs]
  simp only [bind, Except.bind, hcall, h]
  rfl

/-- **Products of matrices agree exactly.** Take two matrices of one shape and a vector of their columns' shape, and any
arithmetic on numbers. The product of the matrices evaluates to a matrix of the shape, and that of the vector as a row
and the second matrix to a vector of the shape. Each column of the first product is what the first matrix times that
column of the second evaluates to. Each component of the second product is what the dot product of the vector and that
column evaluates to. If the multiplication of numbers is commutative, then the second product is also what the
transposed matrix times the vector evaluates to. -/
theorem matrix_products_agree (a : Arith) {s : Shape} (hs : s.isMatrix = true) {m m' x : Value}
    (hm : m.shape = s) (hm' : m'.shape = s) (hx : x.shape = s.column) :
    ∃ w y, w.shape = s ∧ y.shape = s.column ∧ Multiplies a m m' w ∧ Multiplies a x m' y ∧
      (∀ j < s.column.arity,
        Multiplies a m (m'.column j) (w.column j) ∧ Dots a x (m'.column j) (y.lane j)) ∧
      ((∀ u v, a.mul u v = a.mul v u) → Multiplies a m'.transpose x y) := by
  subst hm
  have hs' : m'.shape.isMatrix = true := by rw [hm', hs]
  have hx' : x.shape = m'.shape.column := by rw [hm', hx]
  refine ⟨m.matMul a m', x.vecMat a m', Value.shape_matMul a m m', (Value.shape_vecMat a x m').trans hx,
    multiplies_of_mult (Value.mult_eq_matMul a hs hm'), multiplies_of_mult (Value.mult_eq_vecMat a hs' hx'),
    fun j hj => ⟨?_, ?_⟩, fun hcomm => ?_⟩
  · -- columns of the first product
    have hcolumn : (m'.column j).shape = m.shape.column := by rw [Value.shape_column, hm']
    rw [Value.column_matMul a hs hm' hj]
    exact multiplies_of_mult (Value.mult_eq_matVec a hs hcolumn)
  · -- components of the second product
    have hvector : x.shape.isVector = true := by
      rw [hx]
      revert hs
      cases m.shape <;> decide
    have hcolumn : (m'.column j).shape = x.shape := by rw [Value.shape_column, hx']
    rw [Value.lane_vecMat a hx' (by rwa [hm'])]
    exact dots_of_call (Builtin.call_dot a hvector hcolumn)
  · -- the only place where the order of factors matters
    rw [Value.vecMat_eq_matVec_transpose a hcomm hs' hx']
    refine multiplies_of_mult (Value.mult_eq_matVec a ?_ ?_)
    · rw [Value.shape_transpose, hs']
    · rw [Value.shape_transpose, hx']

/-- An evaluator with two matrices, a vector, the second column of the second matrix, and that matrix transposed. -/
def productEvaluator : Evaluator :=
  ⟨⟨[("m", .ofRows .mat2 [1, 2, 3, 4]), ("n", .ofRows .mat2 [5, 6, 7, 8]), ("x", .ofList .vec2 [9, 10]),
    ("c", .ofList .vec2 [6, 8]), ("t", .ofRows .mat2 [5, 7, 6, 8])]⟩, .empty⟩

/-- Arithmetic in which numbers are multiplied as words, so that the factors may change places. -/
def wordArith : Arith := { Arith.standard with mul := fun u v => ⟨u.bits * v.bits⟩ }

theorem matrix_products_agree_mat2 :
    (∀ a : Arith, ∃ w y, productEvaluator.eval a (.binary "*" (.var "m") (.var "n")) = .ok w ∧
      productEvaluator.eval a (.binary "*" (.var "x") (.var "n")) = .ok y ∧
      productEvaluator.eval a (.binary "*" (.var "m") (.var "c")) = .ok (w.column 1) ∧
      productEvaluator.eval a (.call "dot" [.var "x", .var "c"]) = .ok (.ofFloat (y.lane 1))) ∧
    ∃ y, productEvaluator.eval wordArith (.binary "*" (.var "x") (.var "n")) = .ok y ∧
      productEvaluator.eval wordArith (.binary "*" (.var "t") (.var "x")) = .ok y := by
  have hagree := fun a => @matrix_products_agree a .mat2 rfl (.ofRows .mat2 [1, 2, 3, 4])
    (.ofRows .mat2 [5, 6, 7, 8]) (.ofList .vec2 [9, 10]) rfl rfl rfl
  have hcolumn : (Value.ofRows .mat2 [5, 6, 7, 8]).column 1 = .ofList .vec2 [6, 8] := by decide
  have htranspose : (Value.ofRows .mat2 [5, 6, 7, 8]).transpose = .ofRows .mat2 [5, 7, 6, 8] := by decide
  constructor
  · intro a
    obtain ⟨w, y, _, _, hproduct, hrow, hcolumns, _⟩ := hagree a
    obtain ⟨hw, hy⟩ := hcolumns 1 (by decide)
    rw [hcolumn] at hw hy
    exact ⟨w, y, hproduct productEvaluator _ _ rfl rfl, hrow productEvaluator _ _ rfl rfl,
      hw productEvaluator _ _ rfl rfl, hy productEvaluator _ _ rfl rfl rfl⟩
  · -- for the last part multiplication has to commute, which it does for words
    obtain ⟨_, y, _, _, _, hrow, _, hcomm⟩ := hagree wordArith
    have hy := hcomm fun u v => congrArg Binary32.mk (UInt32.mul_comm u.bits v.bits)
    rw [htranspose] at hy
    exact ⟨y, hrow productEvaluator _ _ rfl rfl, hy productEvaluator _ _ rfl rfl⟩

end Evaluator

end ShaderExpr
