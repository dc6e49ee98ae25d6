import ShaderExpr.Error

/-!
# Literal text

Numbers, vectors and matrices as they are written in shader source. Matrix components are given row by
row and written column by column.
-/

namespace ShaderExpr.Literal

/-- The text of a constructor of numbers; one component of the type `float` stands alone. -/
def vectorText (type : String) (comps : List Binary32) : String :=
  match type, comps with
  | "float", [x] => x.text
  | _, _ => type ++ "(" ++ Binary32.texts comps ++ ")"

/-- The entries of a square matrix column by column, from its entries row by row. -/
def columnMajor (dim : Nat) (rows : List Binary32) : List Binary32 :=
  (List.range dim).flatMap fun col => (List.range dim).map fun row => rows.getD (row * dim + col) 0

/-- The text of a matrix constructor from entries row by row, which must fill a square. A square of
negative dimension has no entries to write. -/
def matrixText (type : String) (dim : Int) (rows : List Binary32) : Except Fault String :=
  if (rows.length : Int) = dim * dim then
    .ok (type ++ "(" ++ Binary32.texts (columnMajor dim.toNat rows) ++ ")")
  else .error .matrixSize

/-- The text of a literal of a shape, from components row by row. Those of a matrix must fill it. -/
def sizedText (s : Shape) (comps : List Binary32) : Except Fault String :=
  if s.isMatrix then matrixText s.name s.column.arity comps else .ok (vectorText s.name comps)

/-- The text of a literal of a shape from as many components as the shape has, row by row. -/
def shapeText (s : Shape) (comps : List Binary32) : String :=
  if s.isMatrix then
    s.name ++ "(" ++ Binary32.texts (columnMajor s.column.arity comps) ++ ")"
  else vectorText s.name comps

/-- Components that are as many as the shape has fill its square, so there is nothing to refuse. -/
theorem sizedText_eq {s : Shape} {comps : List Binary32} (h : comps.length = s.arity) :
    sizedText s comps = .ok (shapeText s comps) := by
  unfold sizedText shapeText
  split
  · next hmatrix =>
      have hsquare : (comps.length : Int) = (s.column.arity : Int) * s.column.arity := by
        rw [h]
        cases s <;> first | rfl | cases hmatrix
      rw [matrixText, if_pos hsquare, Int.toNat_natCast]
  · rfl

end ShaderExpr.Literal
