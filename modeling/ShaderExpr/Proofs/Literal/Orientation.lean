import ShaderExpr.Proofs.Description.Reading
import ShaderExpr.Proofs.Evaluator.Combining
import ShaderExpr.Proofs.Literal.RoundTrip

/-!
# Orientation of matrices

The entries of a matrix are given row by row and kept column by column. A literal writes them in the order in which
they are kept, a value is made with them in that order, columns are combined one after the other, and the product
with a column looks for them there. Each of these has an index computation of its own. They all follow one
convention, so whichever way a matrix is made, it is the same value and its product with a column takes the
entries of a row.

* **`Literal.column`** — the columns of a matrix that is given row by row.
* **`Value.lane_ofRows`** — where an entry is kept.
* **`Value.lane_matVec_ofRows`** — the product with a column.
* **`Vocabulary.read_literal`** — a description of a literal.
* **`Evaluator.matrix_constructions_agree`** — all of them together.
-/

namespace ShaderExpr

/-! ## Literals of finite numbers -/

/-- Finite numbers are no NaN, and only a NaN is replaced when it is read back. -/
theorem Binary32.map_canonical {xs : List Binary32} (h : ∀ x ∈ xs, x.isFinite = true) :
    xs.map canonical = xs := by
  have hcanonical : ∀ x ∈ xs, x.canonical = id x := by
    intro x hx
    unfold canonical
    simp [isNaN_eq_false_of_isFinite (h x hx)]
  rw [List.map_congr_left hcanonical, List.map_id]

/-- A literal of finite numbers evaluates to the value that is made from them, on any evaluator. -/
theorem Evaluator.eval_literalOf {s : Shape} {comps : List Binary32} (hlength : comps.length = s.arity)
    (hfinite : ∀ x ∈ comps, x.isFinite = true) (a : Arith) (ev : Evaluator) :
    ev.eval a (Expr.literalOf s comps).node = .ok (.ofRows s comps) := by
  show Outcome.ofError (Literal.value (Literal.shapeText s comps)) = _
  rw [Literal.value_shapeText hlength, Binary32.map_canonical hfinite]
  rfl

/-! ## Entries by row and column -/

/-- A column of a square matrix, from its entries row by row. -/
def Literal.column (dim : Nat) (rows : List Binary32) (col : Nat) : List Binary32 :=
  (List.range dim).map fun row => rows.getD (row * dim + col) 0

/-- The columns one after the other are the order in which the entries are kept. -/
theorem Literal.flatten_columns (dim : Nat) (rows : List Binary32) :
    ((List.range dim).map (column dim rows)).flatten = columnMajor dim rows :=
  rfl

namespace Value

variable {s : Shape}

/-- Where the entry in a row and a column is kept: at the place of the row in that column. -/
theorem lane_ofRows (hs : s.isMatrix = true) (r : List Binary32) {row col : Nat} (hrow : row < s.column.arity)
    (hcol : col < s.column.arity) :
    (ofRows s r).lane (col * s.column.arity + row) = r.getD (row * s.column.arity + col) 0 := by
  have hlt : col * s.column.arity + row < s.arity := by
    rw [← column_arity_mul hs]
    exact Literal.lt_square hcol hrow
  rw [ofRows, if_pos hs]
  exact lane_ofList hlt (Literal.getElem?_columnMajor hrow hcol r)

/-- A component of the product of a matrix and a column sums up a row of the matrix: the product
looks for its entries column by column, where they are kept. -/
theorem lane_matVec_ofRows (a : Arith) (hs : s.isMatrix = true) (r : List Binary32) {x : Value}
    (hx : x.shape = s.column) {i : Nat} (hi : i < s.column.arity) :
    (matVec a (ofRows s r) x).lane i = (List.range s.column.arity).foldl
      (fun sum k => a.add sum (a.mul (r.getD (i * s.column.arity + k) 0) (x.lane k))) 0 := by
  unfold matVec
  simp only [hx, lane_build hi, sumBelow]
  refine List.foldl_ext _ _ _ fun sum k hk => ?_
  rw [lane_ofRows hs r hi (List.mem_range.mp hk)]

end Value

/-! ## Descriptions of literals -/

namespace Vocabulary

variable {v : Vocabulary} {s : Shape} {nodes : List Yaml.Node} {r : List Binary32}

/-- No operation is called like a shape. -/
theorem head?_shape (s : Shape) : v.head? s.name = some (.shape s) := by
  have hname : Operation.ofName? s.name = none := by cases s <;> decide
  unfold head?
  rw [hname, Shape.ofName?_name]

/-- Nodes that read as numbers, as many as a shape has components, are the components of a
literal. -/
theorem components?_of_numbers (hnumbers : nodes.map number? = r.map some) (hlength : r.length = s.arity) :
    components? s nodes = some r := by
  have hmapM : nodes.mapM number? = some r := by
    calc nodes.mapM number? = (nodes.map number?).mapM id := by rw [List.mapM_map]; rfl
      _ = r.mapM fun x => pure (id x) := by rw [hnumbers, List.mapM_map]; rfl
      _ = some r := by rw [List.mapM_pure, List.map_id]; rfl
  unfold components?
  simp only [hmapM, hlength, if_true]

/-- The name of a shape and numbers for its components describe a literal. A literal is tried before
a combination of parts, so the numbers are not taken for expressions. -/
theorem read_literal {key : Yaml.Node} (hkey : key.text = s.name) (hnumbers : nodes.map number? = r.map some)
    (hlength : r.length = s.arity) (line line' : Nat) :
    v.read (.mapping line [key, .sequence line' nodes]) = .ok (.literalOf s r) := by
  -- every shape has a component
  have hne : nodes ≠ [] := by
    rintro rfl
    have hnil : r = [] := by simpa using hnumbers.symm
    rw [hnil] at hlength
    cases s <;> cases hlength
  have hliteral : literal? (.shape s) nodes = some (.literalOf s r) := by
    rw [literal?, components?_of_numbers hnumbers hlength, Option.map_some]
  unfold read
  rw [readAt_mapping, mapping_eq_ok_iff]
  exact ⟨hne, _, by rw [hkey, head?_shape], .inl hliteral⟩

end Vocabulary

/-! ## One matrix -/

namespace Evaluator

variable {a : Arith} {ev : Evaluator} {s : Shape} {r : List Binary32}

/-- Columns that are combined make the matrix that they are the columns of. Combining puts
components one after the other, which is the order in which a matrix keeps them. -/
theorem hasValue_columns (hs : s.isMatrix = true) (hname : ev.functions.get? s.name = none)
    {columns : List Expr} {vs : List Value} (hvs : List.Forall₂ (ev.HasValue a) columns vs)
    (hcomps : vs.map Value.comps = (List.range s.column.arity).map (Literal.column s.column.arity r)) :
    ∃ e, (Combiner.ofList columns).toCode s.code = .ok e ∧ ev.HasValue a e (.ofRows s r) := by
  have hcomponents : ev.Components a columns (Literal.columnMajor s.column.arity r) := by
    refine ⟨vs, hvs, ?_⟩
    rw [List.flatMap_def, hcomps, Literal.flatten_columns]
  have harity : (columns.map fun e => e.shape.arity).sum = s.arity := by
    rw [← hcomponents.length_eq, Literal.length_columnMajor, Value.column_arity_mul hs]
  rw [Combiner.toCode_code, Value.ofRows, if_pos hs]
  exact ⟨_, Combiner.toShape_ofList_eq_ok_iff.mpr ⟨harity, rfl⟩, hasValue_combination hname hcomponents harity⟩

/-- The transformation of a column by a matrix evaluates to their product: of the three products,
the shapes pick the one of a matrix and a column. -/
theorem hasValue_transform (hs : s.isMatrix = true) {matrix vector : Expr} {m x : Value}
    (hm : ev.HasValue a matrix m) (hx : ev.HasValue a vector x) (hmshape : m.shape = s)
    (hxshape : x.shape = s.column) :
    ∃ e, Expr.apply Operation.transform.code (some matrix) [some vector] = .ok e ∧
      ev.HasValue a e (m.matVec a x) := by
  have hsig : Operation.transform.signature? matrix.shape = some ⟨[s.column], s.column⟩ := by
    rw [← hm.2, hmshape]
    revert hs
    cases s <;> decide
  have hshapes : [vector].map Expr.shape = [s.column] := by
    rw [List.map_singleton, ← hx.2, hxshape]
  obtain ⟨e, w, he, _, hw, hvalue⟩ := hasValue_apply hsig hshapes nofun hm (.cons hx .nil)
  have hproduct : Value.mult a m x = .ok w := hw
  -- of the products of the evaluator this is the one of a matrix and a column
  rw [Value.mult_eq_matVec a (by rw [hmshape, hs]) (by rw [hmshape, hxshape])] at hproduct
  cases hproduct
  exact ⟨e, he, hvalue⟩

/-- **One convention for the entries of a matrix.** Take finite numbers, as many as a matrix has entries, to be these
row by row. The value that is made from them keeps the entry in a row and a column at the place of the row in that
column. A literal of the numbers evaluates to this value, and so does the expression that a description denotes by
the name of the shape and nodes that read as the numbers, with any names in scope and on any evaluator. It is also
what expressions combine to that have the columns as their components, if no function is named like the shape. The
transformation of a vector by the matrix, whatever expression it comes from, evaluates to the vector in which the
component of a row is the sum of the entries of that row times the components, added from zero on in order. -/
theorem matrix_constructions_agree (hs : s.isMatrix = true) (hlength : r.length = s.arity)
    (hfinite : ∀ x ∈ r, x.isFinite = true) :
    (∀ row < s.column.arity, ∀ col < s.column.arity,
      r[row * s.column.arity + col]? = some ((Value.ofRows s r).lane (col * s.column.arity + row))) ∧
    (∃ e, Expr.literal s.code r = .ok e ∧ e.shape = s ∧
      ∀ (a : Arith) (ev : Evaluator), ev.eval a e.node = .ok (.ofRows s r)) ∧
    (∀ (v : Vocabulary) (line line' : Nat) (key : Yaml.Node) (nodes : List Yaml.Node), key.text = s.name →
      nodes.map Vocabulary.number? = r.map some →
        ∃ e, v.read (.mapping line [key, .sequence line' nodes]) = .ok e ∧ e.shape = s ∧
          ∀ (a : Arith) (ev : Evaluator), ev.eval a e.node = .ok (.ofRows s r)) ∧
    (∀ (a : Arith) (ev : Evaluator) (columns : List Expr) (vs : List Value), ev.functions.get? s.name = none →
      List.Forall₂ (ev.HasValue a) columns vs →
      vs.map Value.comps = (List.range s.column.arity).map (Literal.column s.column.arity r) →
        ∃ e, (Combiner.ofList columns).toCode s.code = .ok e ∧ ev.HasValue a e (.ofRows s r)) ∧
    ∀ (a : Arith) (ev : Evaluator) (matrix vector : Expr) (x : Value), ev.HasValue a matrix (.ofRows s r) →
      ev.HasValue a vector x → x.shape = s.column →
        ∃ e y, Expr.apply Operation.transform.code (some matrix) [some vector] = .ok e ∧ ev.HasValue a e y ∧
          y.shape = s.column ∧ ∀ i < s.column.arity,
            y.lane i = (List.range s.column.arity).foldl
              (fun sum k => a.add sum (a.mul (r.getD (i * s.column.arity + k) 0) (x.lane k))) 0 := by
  refine ⟨fun row hrow col hcol => ?_, ⟨_, Expr.literal_code hlength, rfl, eval_literalOf hlength hfinite⟩,
    ?_, ?_, ?_⟩
  · -- where the entries are kept
    have hlt : row * s.column.arity + col < r.length := by
      rw [hlength, ← Value.column_arity_mul hs]
      exact Literal.lt_square hrow hcol
    rw [Value.lane_ofRows hs r hrow hcol, List.getD_eq_getElem?_getD, List.getElem?_eq_getElem hlt,
      Option.getD_some]
  · -- a description denotes the same literal
    intro v line line' key nodes hkey hnumbers
    exact ⟨_, Vocabulary.read_literal hkey hnumbers hlength line line', rfl,
      eval_literalOf hlength hfinite⟩
  · intro a ev columns vs hname hvs hcomps
    exact hasValue_columns hs hname hvs hcomps
  · -- the product sums up the rows of the value, whatever expression it came from
    intro a ev matrix vector x hmatrix hvector hx
    obtain ⟨e, he, hvalue⟩ := hasValue_transform hs hmatrix hvector (Value.shape_ofRows _ _) hx
    exact ⟨e, _, he, hvalue, (Value.shape_matVec _ _ _).trans hx,
      fun i hi => Value.lane_matVec_ofRows a hs r hx hi⟩

/-- An evaluator with the columns of a matrix, the matrix, and a vector. -/
def shearEvaluator : Evaluator :=
  ⟨⟨[("c", .ofList .vec2 [1, 3]), ("d", .ofList .vec2 [2, 4]), ("m", .ofRows .mat2 [1, 2, 3, 4]),
    ("x", .ofList .vec2 [5, 6])]⟩, .empty⟩

/-- A matrix in the three ways in which it can be made, and its product with a vector. -/
theorem matrix_constructions_agree_shear :
    (∀ x ∈ ([1, 2, 3, 4] : List Binary32), x.isFinite = true) ∧
    ∀ (a : Arith) (v : Vocabulary), ∃ literal described combined transformed y,
      Expr.literal Shape.mat2.code [1, 2, 3, 4] = .ok literal ∧
      v.read (.mapping 1 [.scalar 1 .str "mat2", .sequence 1 [.scalar 1 .int "1", .scalar 1 .float "2.0",
        .scalar 1 .int "3", .scalar 1 .float "4e0"]]) = .ok described ∧
      (Combiner.ofList [.var "c" .vec2, .var "d" .vec2]).toCode Shape.mat2.code = .ok combined ∧
      (∀ e ∈ [literal, described, combined],
        shearEvaluator.eval a e.node = .ok (.ofRows .mat2 [1, 2, 3, 4])) ∧
      Expr.apply Operation.transform.code (some (.var "m" .mat2)) [some (.var "x" .vec2)] = .ok transformed ∧
      shearEvaluator.eval a transformed.node = .ok y ∧
      y.lane 1 = a.add (a.add 0 (a.mul 3 5)) (a.mul 4 6) := by
  have hfinite : ∀ x ∈ ([1, 2, 3, 4] : List Binary32), x.isFinite = true := by decide
  refine ⟨hfinite, fun a v => ?_⟩
  obtain ⟨_, ⟨literal, hliteral, _, hvalue⟩, hdescribed, hcombined, htransformed⟩ :=
    matrix_constructions_agree (s := .mat2) rfl rfl hfinite
  obtain ⟨described, hread, _, hvalue'⟩ := hdescribed v 1 1 (.scalar 1 .str "mat2")
    [.scalar 1 .int "1", .scalar 1 .float "2.0", .scalar 1 .int "3", .scalar 1 .float "4e0"] rfl
    (by decide +kernel)
  obtain ⟨combined, hcombine, hvalue''⟩ := hcombined a shearEvaluator [.var "c" .vec2, .var "d" .vec2]
    [.ofList .vec2 [1, 3], .ofList .vec2 [2, 4]] rfl (.cons ⟨rfl, rfl⟩ (.cons ⟨rfl, rfl⟩ .nil)) rfl
  obtain ⟨transformed, y, happly, hy, _, hlane⟩ := htransformed a shearEvaluator (.var "m" .mat2)
    (.var "x" .vec2) (.ofList .vec2 [5, 6]) ⟨rfl, rfl⟩ ⟨rfl, rfl⟩ rfl
  refine ⟨literal, described, combined, transformed, y, hliteral, hread, hcombine, ?_, happly, hy.1,
    hlane 1 (by decide)⟩
  simp [hvalue, hvalue', hvalue''.1]

end Evaluator

end ShaderExpr
