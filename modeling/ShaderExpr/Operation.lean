import ShaderExpr.Shape

/-!
# Operations

The catalog of operations on shader expressions. For each operation it says which shapes may receive
it, the shapes of the other operands and of the result relative to the receiver, and how it is
written. Everything else about an operation follows from its entry.
-/

namespace ShaderExpr

/-- An operation of the catalog. -/
inductive Operation where
  | add | sub | mult | div | mod | neg | pow | dot | cross | min | max | clamp | mix | step
  | smoothstep | length | distance | normalize | faceforward | reflect | refract | matrixCompMult
  | sin | cos | tan | exp | log | sqrt | abs | floor | fract | scale | transform
deriving DecidableEq, Repr, Inhabited

/-- The shape of an operand or a result, relative to the receiver. -/
inductive Operand where
  /-- The receiver's own shape. -/
  | same
  /-- A single number. -/
  | float
  /-- A column of a matrix receiver. -/
  | column
deriving DecidableEq, Repr

/-- The shape that an operand has for a receiver. -/
def Operand.resolve (recv : Shape) : Operand → Shape
  | .same => recv
  | .float => .float
  | .column => recv.column

/-- How an operation is written. -/
inductive Form where
  /-- A call with the receiver as first argument. -/
  | call
  /-- A call with the receiver as last argument. -/
  | callLast
  /-- An operator between the receiver and its only operand. -/
  | between
  /-- An operator before the receiver. -/
  | before
deriving DecidableEq, Repr

/-- What the catalog says about an operation. -/
structure Operation.Entry where
  /-- The name in descriptions. -/
  name : String
  /-- The name as a method of typed expressions. -/
  method : String
  /-- The shapes that may receive it. -/
  shapes : List Shape
  /-- The operands after the receiver. -/
  args : List Operand
  result : Operand
  form : Form
  /-- The function name or operator symbol in shader source. -/
  symbol : String
deriving DecidableEq, Repr

/-- The operand and result shapes of an operation on a receiver. -/
structure Signature where
  args : List Shape
  result : Shape
deriving DecidableEq, Repr

namespace Operation

/-- All operations in catalog order. -/
def all : List Operation :=
  [.add, .sub, .mult, .div, .mod, .neg, .pow, .dot, .cross, .min, .max, .clamp, .mix, .step,
    .smoothstep, .length, .distance, .normalize, .faceforward, .reflect, .refract, .matrixCompMult,
    .sin, .cos, .tan, .exp, .log, .sqrt, .abs, .floor, .fract, .scale, .transform]

def vectorShapes : List Shape := [.vec2, .vec3, .vec4]

def matrixShapes : List Shape := [.mat2, .mat3, .mat4]

/-- Numbers and vectors. -/
def genericShapes : List Shape := [.float, .vec2, .vec3, .vec4]

/-- The catalog. -/
def entry : Operation → Entry
  | .add => ⟨"add", "Add", Shape.all, [.same], .same, .between, "+"⟩
  | .sub => ⟨"sub", "Sub", Shape.all, [.same], .same, .between, "-"⟩
  | .mult => ⟨"mult", "Mult", Shape.all, [.same], .same, .between, "*"⟩
  | .div => ⟨"div", "Div", Shape.all, [.same], .same, .between, "/"⟩
  | .mod => ⟨"mod", "Mod", Shape.all, [.same], .same, .call, "mod"⟩
  | .neg => ⟨"neg", "Neg", Shape.all, [], .same, .before, "-"⟩
  | .pow => ⟨"pow", "Pow", Shape.all, [.same], .same, .call, "pow"⟩
  | .dot => ⟨"dot", "Dot", vectorShapes, [.same], .float, .call, "dot"⟩
  | .cross => ⟨"cross", "Cross", [.vec3], [.same], .same, .call, "cross"⟩
  | .min => ⟨"min", "Min", Shape.all, [.same], .same, .call, "min"⟩
  | .max => ⟨"max", "Max", Shape.all, [.same], .same, .call, "max"⟩
  | .clamp => ⟨"clamp", "Clamp", Shape.all, [.same, .same], .same, .call, "clamp"⟩
  | .mix => ⟨"mix", "Mix", Shape.all, [.same, .float], .same, .call, "mix"⟩
  | .step => ⟨"step", "Step", Shape.all, [.same], .same, .callLast, "step"⟩
  | .smoothstep =>
    ⟨"smoothstep", "Smoothstep", Shape.all, [.same, .same], .same, .callLast, "smoothstep"⟩
  | .length => ⟨"length", "Length", vectorShapes, [], .float, .call, "length"⟩
  | .distance => ⟨"distance", "Distance", vectorShapes, [.same], .float, .call, "distance"⟩
  | .normalize => ⟨"normalize", "Normalize", vectorShapes, [], .same, .call, "normalize"⟩
  | .faceforward =>
    ⟨"faceforward", "Faceforward", vectorShapes, [.same, .same], .same, .call, "faceforward"⟩
  | .reflect => ⟨"reflect", "Reflect", vectorShapes, [.same], .same, .call, "reflect"⟩
  | .refract => ⟨"refract", "Refract", vectorShapes, [.same, .float], .same, .call, "refract"⟩
  | .matrixCompMult =>
    ⟨"matrixCompMult", "MatrixCompMult", matrixShapes, [.same], .same, .call, "matrixCompMult"⟩
  | .sin => ⟨"sin", "Sin", genericShapes, [], .same, .call, "sin"⟩
  | .cos => ⟨"cos", "Cos", genericShapes, [], .same, .call, "cos"⟩
  | .tan => ⟨"tan", "Tan", genericShapes, [], .same, .call, "tan"⟩
  | .exp => ⟨"exp", "Exp", genericShapes, [], .same, .call, "exp"⟩
  | .log => ⟨"log", "Log", genericShapes, [], .same, .call, "log"⟩
  | .sqrt => ⟨"sqrt", "Sqrt", genericShapes, [], .same, .call, "sqrt"⟩
  | .abs => ⟨"abs", "Abs", genericShapes, [], .same, .call, "abs"⟩
  | .floor => ⟨"floor", "Floor", genericShapes, [], .same, .call, "floor"⟩
  | .fract => ⟨"fract", "Fract", genericShapes, [], .same, .call, "fract"⟩
  | .scale => ⟨"scale", "Scale", Shape.all, [.float], .same, .between, "*"⟩
  | .transform =>
    ⟨"transform", "Transform", matrixShapes, [.column], .column, .between, "*"⟩

def name (op : Operation) : String := op.entry.name

def method (op : Operation) : String := op.entry.method

def symbol (op : Operation) : String := op.entry.symbol

/-- May a shape receive the operation? -/
def supports (op : Operation) (s : Shape) : Bool := op.entry.shapes.contains s

/-- Operand and result shapes on a receiver, if it may receive the operation. -/
def signature? (op : Operation) (recv : Shape) : Option Signature :=
  if op.supports recv then
    some ⟨op.entry.args.map (Operand.resolve recv), op.entry.result.resolve recv⟩
  else none

/-- The operation with a name. -/
def ofName? (name : String) : Option Operation := all.find? (·.name == name)

/-- The operation with a method name. -/
def ofMethod? (method : String) : Option Operation := all.find? (·.method == method)

theorem mem_all (op : Operation) : op ∈ all := by cases op <;> decide

end Operation

/-- The operations that a shape may receive, in catalog order. -/
def Shape.operations (s : Shape) : List Operation := Operation.all.filter (·.supports s)

/-- A number that may name an operation. -/
structure OpCode where
  number : Nat
deriving DecidableEq, Repr

namespace OpCode

/-- The operation that the number names. -/
def op? (c : OpCode) : Option Operation := Operation.all[c.number]?

/-- The name of the operation, or a text that shows the number. -/
def name (c : OpCode) : String :=
  match c.op? with
  | some op => op.name
  | none => "Op(" ++ toString c.number ++ ")"

/-- The method name of the operation, or nothing. -/
def method (c : OpCode) : String :=
  match c.op? with
  | some op => op.method
  | none => ""

end OpCode

/-- The code of an operation. -/
def Operation.code (op : Operation) : OpCode := ⟨Operation.all.idxOf op⟩

end ShaderExpr
