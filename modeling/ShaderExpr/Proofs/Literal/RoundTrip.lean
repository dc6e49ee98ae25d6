import ShaderExpr.Proofs.Literal.Value

/-!
# Values and their texts

The text of a value is a literal, and reading a literal gives a value. The two are inverse to each other up
to the bits of a NaN, for which there is only one text. Literals of expressions are written from components
row by row, while values keep matrices column by column, so evaluating the literal of a matrix gives the
entries transposed.

* **`Binary32.ReadsAs`** — what may come back for a number that was written.
* **`Literal.getElem?_columnMajor`** — where an entry of a matrix goes.
* **`Value.literal_round_trip`** — both directions.
-/

namespace ShaderExpr

/-! ## Numbers that come back -/

namespace Binary32

/-- A number that was written comes back as itself, and a NaN as a NaN. -/
def ReadsAs (x y : Binary32) : Prop := if x.isNaN then y.isNaN = true else y = x

/-- What a number is read back as: only the bits of a NaN may differ. -/
theorem readsAs_canonical (x : Binary32) : x.ReadsAs x.canonical := by
  unfold ReadsAs canonical
  by_cases hnan : x.isNaN = true
  · rw [if_pos hnan, if_pos hnan]
    decide
  · rw [if_neg hnan, if_neg hnan]

theorem ReadsAs.eq_of_isNaN_eq_false {x y : Binary32} (h : x.ReadsAs y) (hx : x.isNaN = false) :
    y = x := by
  unfold ReadsAs at h
  rwa [hx, if_neg Bool.false_ne_true] at h

end Binary32

/-! ## Transposition -/

namespace Literal

/-- The two coordinates of an entry are found again from its index. -/
theorem div_mod_of_lt {dim k : Nat} (hk : k < dim) (n : Nat) :
    (n * dim + k) / dim = n ∧ (n * dim + k) % dim = k := by
  have hpos : 0 < dim := Nat.zero_lt_of_lt hk
  rw [Nat.mul_comm, Nat.mul_add_div hpos, Nat.mul_add_mod, Nat.div_eq_of_lt hk, Nat.mod_eq_of_lt hk]
  exact ⟨Nat.add_zero n, rfl⟩

/-- Rows of equal length one after the other, by index. Induction on the rows; the last of them
starts at the index where the others end. -/
theorem flatMap_range_map (dim : Nat) (f : Nat → Nat → Binary32) (n : Nat) :
    ((List.range n).flatMap fun i => (List.range dim).map (f i)) =
      (List.range (n * dim)).map fun k => f (k / dim) (k % dim) := by
  induction n with
  | zero => simp
  | succ n ih =>
      have hlast : (List.range dim).map (f n) =
          (List.range dim).map fun k => f ((n * dim + k) / dim) ((n * dim + k) % dim) := by
        refine List.map_congr_left fun k hk => ?_
        obtain ⟨hdiv, hmod⟩ := div_mod_of_lt (List.mem_range.mp hk) n
        rw [hdiv, hmod]
      rw [List.range_succ, List.flatMap_append, ih, Nat.succ_mul, List.range_add, List.map_append,
        List.map_map]
      simpa using hlast

theorem lt_square {dim row col : Nat} (hrow : row < dim) (hcol : col < dim) :
    row * dim + col < dim * dim := by
  calc row * dim + col < row * dim + dim := Nat.add_lt_add_left hcol _
    _ = (row + 1) * dim := (Nat.succ_mul row dim).symm
    _ ≤ dim * dim := Nat.mul_le_mul_right dim hrow

/-- The entry in a row and a column goes to its place in the order by columns: the index has column
and row exchanged. -/
theorem getElem?_columnMajor {dim row col : Nat} (hrow : row < dim) (hcol : col < dim)
    (rows : List Binary32) :
    (columnMajor dim rows)[col * dim + row]? = some (rows.getD (row * dim + col) 0) := by
  have hlt : col * dim + row < dim * dim := lt_square hcol hrow
  obtain ⟨hdiv, hmod⟩ := div_mod_of_lt hrow col
  unfold columnMajor
  rw [flatMap_range_map dim (fun col row => rows.getD (row * dim + col) 0), List.getElem?_map,
    List.getElem?_range hlt, Option.map_some, hdiv, hmod]

end Literal

/-! ## Both directions -/

namespace Value

/-- A component comes back in its own lane. -/
theorem readsAs_ofList {s : Shape} {xs : List Binary32} (hlength : xs.length = s.arity) {i : Nat}
    {x : Binary32} (hx : xs[i]? = some x) :
    x.ReadsAs ((ofList s (xs.map Binary32.canonical)).lane i) := by
  have hi : i < s.arity := by
    rw [← hlength]
    exact (List.getElem?_eq_some_iff.mp hx).1
  rw [lane_ofList hi (by rw [List.getElem?_map, hx, Option.map_some])]
  exact x.readsAs_canonical

/-- The entries of a matrix come back with rows and columns exchanged, since they are given by rows
and kept by columns. -/
theorem readsAs_ofRows {s : Shape} (hs : s.isMatrix = true) {xs : List Binary32}
    (hlength : xs.length = s.arity) {row col : Nat} {x : Binary32} (hrow : row < s.column.arity)
    (hcol : col < s.column.arity) (hx : xs[row * s.column.arity + col]? = some x) :
    x.ReadsAs ((ofRows s (xs.map Binary32.canonical)).lane (col * s.column.arity + row)) := by
  have hsquare : s.column.arity * s.column.arity = s.arity := by
    cases s <;> first | rfl | cases hs
  have hentry : (Literal.columnMajor s.column.arity xs)[col * s.column.arity + row]? = some x := by
    rw [Literal.getElem?_columnMajor hrow hcol, List.getD_eq_getElem?_getD, hx, Option.getD_some]
  rw [ofRows, if_pos hs, Literal.columnMajor_map (by decide)]
  exact readsAs_ofList (by rw [Literal.length_columnMajor, hsquare]) hentry

/-- **Literals round trip.** The text of a value is read as a value of its shape with the same components,
sign of zero and infinities included, a NaN as a NaN; so a value without NaN, and with nothing beyond its
components, is read as itself. The literal of a shape and as many components as it has evaluates, on any
evaluator, to the value of that shape with these components, those of a matrix transposed: they are given
row by row and kept column by column. -/
theorem literal_round_trip :
    (∀ v : Value, ∃ w, Literal.value v.text = .ok w ∧ w.shape = v.shape ∧
      (∀ i < v.shape.arity, (v.lane i).ReadsAs (w.lane i)) ∧
      ((∀ i, v.shape.arity ≤ i → v.lane i = 0) → (∀ i < v.shape.arity, (v.lane i).isNaN = false) →
        w = v)) ∧
    ∀ (s : Shape) (comps : List Binary32), comps.length = s.arity →
      ∃ e, Expr.literal s.code comps = .ok e ∧ ∀ (a : Arith) (ev : Evaluator),
        ∃ w, ev.eval a e.node = .ok w ∧ w.shape = s ∧ (∀ i, s.arity ≤ i → w.lane i = 0) ∧
          (s.isMatrix = false → ∀ (i : Nat) x, comps[i]? = some x → x.ReadsAs (w.lane i)) ∧
          (s.isMatrix = true → ∀ row col x, row < s.column.arity → col < s.column.arity →
            comps[row * s.column.arity + col]? = some x →
              x.ReadsAs (w.lane (col * s.column.arity + row))) := by
  constructor
  · intro v
    have hreads : ∀ i < v.shape.arity,
        (v.lane i).ReadsAs ((ofList v.shape (v.comps.map Binary32.canonical)).lane i) := fun i hi =>
      readsAs_ofList (length_comps v) (getElem?_comps hi)
    refine ⟨_, Literal.value_vectorText (length_comps v), shape_ofList _ _, hreads, ?_⟩
    -- beyond the components both are zero, and a component that is no NaN is the same
    intro hbeyond hnan
    refine eq_of_lanes (shape_ofList _ _) fun i => ?_
    by_cases hi : i < v.shape.arity
    · exact (hreads i hi).eq_of_isNaN_eq_false (hnan i hi)
    · rw [hbeyond i (Nat.not_lt.mp hi), ofList, lane_build_of_le (Nat.not_lt.mp hi)]
  · intro s comps hlength
    -- the value of the literal does not depend on the arithmetic or the names of the evaluator
    refine ⟨_, Expr.literal_code hlength, fun a ev => ⟨ofRows s (comps.map Binary32.canonical), ?_, shape_ofRows _ _,
      ?_, ?_, ?_⟩⟩
    · show Outcome.ofError (Literal.value (Literal.shapeText s comps)) = _
      rw [Literal.value_shapeText hlength]
      rfl
    · -- nothing is written beyond the components
      intro i hi
      unfold ofRows
      split
      · exact lane_build_of_le hi _
      · exact lane_build_of_le hi _
    · intro hs i x hx
      unfold ofRows
      rw [hs, if_neg Bool.false_ne_true]
      exact readsAs_ofList hlength hx
    · intro hs row col x hrow hcol hx
      exact readsAs_ofRows hs hlength hrow hcol hx

/-- Minus zero and an infinity come back with their signs, and a matrix comes back transposed. -/
theorem literal_round_trip_signedZero :
    Literal.value (ofList .vec2 [.zeroOf true, .infinite false]).text =
      .ok (ofList .vec2 [.zeroOf true, .infinite false]) ∧
    ∃ e, Expr.literal Shape.mat2.code [1, 2, 3, 4] = .ok e ∧ ∀ (a : Arith) (ev : Evaluator),
      ∃ w, ev.eval a e.node = .ok w ∧ w.shape = .mat2 ∧ w.lane 1 = 3 ∧ w.lane 2 = 2 := by
  obtain ⟨hreads, hevaluates⟩ := literal_round_trip
  constructor
  · obtain ⟨w, hw, _, _, hsame⟩ := hreads (ofList .vec2 [.zeroOf true, .infinite false])
    rw [hw, hsame (fun i hi => lane_build_of_le hi _) (by decide)]
  · obtain ⟨e, he, heval⟩ := hevaluates .mat2 [1, 2, 3, 4] rfl
    refine ⟨e, he, fun a ev => ?_⟩
    obtain ⟨w, hw, hshape, _, _, hentries⟩ := heval a ev
    have hthree : Binary32.ReadsAs 3 (w.lane 1) := hentries rfl 1 0 3 (by decide) (by decide) rfl
    have htwo : Binary32.ReadsAs 2 (w.lane 2) := hentries rfl 0 1 2 (by decide) (by decide) rfl
    exact ⟨w, hw, hshape, hthree.eq_of_isNaN_eq_false (by decide),
      htwo.eq_of_isNaN_eq_false (by decide)⟩

end Value

end ShaderExpr
