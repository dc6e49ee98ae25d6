import ShaderExpr.Literal

/-!
# Values

A value is a shape and sixteen lanes, enough for the largest shape. The first lanes, as many as the
shape has components, are the components; matrices are kept column by column. The other lanes are zero
in every value that is made here, and no operation looks at them.
-/

namespace ShaderExpr

/-- How many lanes a value has. -/
def laneCount : Nat := 16

/-- A value of a shape. -/
structure Value where
  shape : Shape
  lanes : Vector Binary32 laneCount
deriving DecidableEq, Repr

namespace Value

/-- The lane at an index; zero beyond the last. -/
def lane (v : Value) (i : Nat) : Binary32 := v.lanes[i]?.getD 0

/-- The value of a shape with components given by index. -/
def build (shape : Shape) (f : Nat → Binary32) : Value :=
  ⟨shape, Vector.ofFn fun i => if i.val < shape.arity then f i.val else 0⟩

/-- The value of a shape with all components zero. -/
def zero (shape : Shape) : Value := build shape fun _ => 0

instance : Inhabited Value := ⟨zero .float⟩

/-- The value of a shape with components from a list; those that are not there are zero. -/
def ofList (shape : Shape) (comps : List Binary32) : Value := build shape fun i => comps.getD i 0

def ofFloat (x : Binary32) : Value := ofList .float [x]

/-- The value of a shape given by number, with exactly its components. -/
def ofComponents (code : ShapeCode) (comps : List Binary32) : Except Error Value :=
  match code.shape? with
  | none => .error (.cause (.invalidShape code.number))
  | some s =>
    if comps.length = s.arity then .ok (ofList s comps)
    else .error (.cause (.valueSize s comps.length))

/-- The value of a shape with matrix entries row by row. -/
def ofRows (shape : Shape) (comps : List Binary32) : Value :=
  if shape.isMatrix then ofList shape (Literal.columnMajor shape.column.arity comps)
  else ofList shape comps

/-- The components in order. -/
def comps (v : Value) : List Binary32 := (List.range v.shape.arity).map v.lane

/-- The first lanes, read as a vector of so many components whatever the shape is. -/
def leading (v : Value) (n : Nat) : List Binary32 := (List.range n).map v.lane

/-- Applies a function to every component. -/
def map (f : Binary32 → Binary32) (v : Value) : Value :=
  ⟨v.shape, Vector.ofFn fun i => if i.val < v.shape.arity then f (v.lane i) else v.lane i⟩

/-- Replaces every component by a function of its index and itself. -/
def mapIdx (f : Nat → Binary32 → Binary32) (v : Value) : Value :=
  ⟨v.shape, Vector.ofFn fun i => if i.val < v.shape.arity then f i (v.lane i) else v.lane i⟩

/-- The text of a value as a literal. -/
def text (v : Value) : String := Literal.vectorText v.shape.name v.comps

end Value

end ShaderExpr
