/-!
# Shapes

The seven numeric types of shader expressions: a single number, vectors of two to four components and
square matrices of two to four columns. A shape is also known by its number in the order of
declaration; a `ShapeCode` is any such number, whether or not it names a shape.
-/

namespace ShaderExpr

/-- A numeric type. -/
inductive Shape where
  | float
  | vec2
  | vec3
  | vec4
  | mat2
  | mat3
  | mat4
deriving DecidableEq, Repr, Inhabited

namespace Shape

/-- All shapes in order of declaration. -/
def all : List Shape := [.float, .vec2, .vec3, .vec4, .mat2, .mat3, .mat4]

/-- The place of a shape in `all`. -/
def number : Shape → Nat
  | .float => 0
  | .vec2 => 1
  | .vec3 => 2
  | .vec4 => 3
  | .mat2 => 4
  | .mat3 => 5
  | .mat4 => 6

/-- The name of the type in shader source. -/
def name : Shape → String
  | .float => "float"
  | .vec2 => "vec2"
  | .vec3 => "vec3"
  | .vec4 => "vec4"
  | .mat2 => "mat2"
  | .mat3 => "mat3"
  | .mat4 => "mat4"

/-- How many components a value of the shape has. -/
def arity : Shape → Nat
  | .float => 1
  | .vec2 => 2
  | .vec3 => 3
  | .vec4 => 4
  | .mat2 => 4
  | .mat3 => 9
  | .mat4 => 16

def isVector : Shape → Bool
  | .vec2 | .vec3 | .vec4 => true
  | _ => false

def isMatrix : Shape → Bool
  | .mat2 | .mat3 | .mat4 => true
  | _ => false

/-- The shape of a matrix column; other shapes are their own. -/
def column : Shape → Shape
  | .mat2 => .vec2
  | .mat3 => .vec3
  | .mat4 => .vec4
  | s => s

/-- The shape with a name. -/
def ofName? (name : String) : Option Shape := all.find? (·.name == name)

@[simp] theorem ofName?_name (s : Shape) : ofName? s.name = some s := by cases s <;> decide

theorem name_injective {s t : Shape} (h : s.name = t.name) : s = t := by
  have hs := ofName?_name s
  rw [h, ofName?_name] at hs
  exact (Option.some.inj hs).symm

@[simp] theorem all_getElem?_number (s : Shape) : all[s.number]? = some s := by cases s <;> rfl

theorem mem_all (s : Shape) : s ∈ all := by cases s <;> decide

end Shape

/-- A number that may name a shape. -/
structure ShapeCode where
  number : Nat
deriving DecidableEq, Repr

namespace ShapeCode

/-- The shape that the number names. -/
def shape? (c : ShapeCode) : Option Shape := Shape.all[c.number]?

/-- Does the number name a shape? -/
def isValid (c : ShapeCode) : Bool := c.shape?.isSome

/-- The name of the shape, or a text that shows the number. -/
def name (c : ShapeCode) : String :=
  match c.shape? with
  | some s => s.name
  | none => "Shape(" ++ toString c.number ++ ")"

end ShapeCode

/-- The code of a shape. -/
def Shape.code (s : Shape) : ShapeCode := ⟨s.number⟩

@[simp] theorem Shape.shape?_code (s : Shape) : s.code.shape? = some s := by cases s <;> rfl

end ShaderExpr
