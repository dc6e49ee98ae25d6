import ShaderExpr.Arith
import ShaderExpr.Value

/-!
# Operators and functions of the shading language

What the operators, the constructors and the built-in functions compute on values. Component by
component functions take a single number for every component where the other operand has several.
Results and errors depend on the shapes of the operands in a way that never looks at their components.
-/

namespace ShaderExpr

namespace Value

/-- Joins two values component by component; a single number is used for every component of the
other. -/
def zip (f : Binary32 → Binary32 → Binary32) (x y : Value) : Except Error Value :=
  if x.shape = y.shape then .ok (x.mapIdx fun i c => f c (y.lane i))
  else if y.shape = .float then .ok (x.map fun c => f c (y.lane 0))
  else if x.shape = .float then .ok (y.map fun c => f (x.lane 0) c)
  else .error (.cause (.incompatible x.shape y.shape))

/-- The sum of the terms at the indices below `n`, added from zero on in order. -/
def sumBelow (a : Arith) (n : Nat) (term : Nat → Binary32) : Binary32 :=
  (List.range n).foldl (fun sum k => a.add sum (term k)) 0

def dot (a : Arith) (x y : Value) : Binary32 :=
  sumBelow a x.shape.arity fun k => a.mul (x.lane k) (y.lane k)

def length (a : Arith) (x : Value) : Binary32 := a.sqrt (x.dot a x)

/-- The product of two matrices of one shape. -/
def matMul (a : Arith) (x y : Value) : Value :=
  let n := x.shape.column.arity
  build x.shape fun i =>
    sumBelow a n fun k => a.mul (x.lane (k * n + i % n)) (y.lane (i / n * n + k))

/-- The product of a matrix and a column. -/
def matVec (a : Arith) (m x : Value) : Value :=
  let n := x.shape.arity
  build x.shape fun row => sumBelow a n fun k => a.mul (m.lane (k * n + row)) (x.lane k)

/-- The product of a row and a matrix. -/
def vecMat (a : Arith) (x m : Value) : Value :=
  let n := x.shape.arity
  build x.shape fun col => sumBelow a n fun k => a.mul (x.lane k) (m.lane (col * n + k))

/-- The product of two values: that of matrices where one is a matrix and the other fits it, else
component by component. -/
def mult (a : Arith) (x y : Value) : Except Error Value :=
  if x.shape.isMatrix && y.shape = x.shape then .ok (matMul a x y)
  else if x.shape.isMatrix && y.shape = x.shape.column then .ok (matVec a x y)
  else if y.shape.isMatrix && x.shape = y.shape.column then .ok (vecMat a x y)
  else zip a.mul x y

/-- An operator between two values. -/
def binary (a : Arith) (op : String) (x y : Value) : Except Error Value :=
  match op with
  | "+" => zip a.add x y
  | "-" => zip a.sub x y
  | "/" => zip a.div x y
  | "*" => mult a x y
  | _ => .error (.cause (.unknownBinary op))

/-- An operator before a value. -/
def unary (a : Arith) (op : String) (x : Value) : Except Error Value :=
  if op = "-" then .ok (x.map a.neg) else .error (.cause (.unknownUnary op))

/-- A number for every component of a vector, or on the diagonal of a matrix. -/
def spread (s : Shape) (x : Binary32) : Value :=
  if s.isMatrix then
    let n := s.column.arity
    build s fun i => if i / n = i % n then x else 0
  else build s fun _ => x

/-- The components of values, one after the other, as a value of a shape. -/
def concat (s : Shape) (args : List Value) : Except Error Value :=
  let all := args.flatMap comps
  if s.arity < all.length then .error (.cause (.tooManyComponents s))
  else if all.length < s.arity then .error (.cause (.componentCount s all.length))
  else .ok (ofList s all)

/-- The constructor of a shape. -/
def construct (s : Shape) (args : List Value) : Except Error Value :=
  match args with
  | [x] => if x.shape = .float ∧ s ≠ .float then .ok (spread s (x.lane 0)) else concat s args
  | _ => concat s args

end Value

namespace Builtin

open Value

/-- Functions of one component. -/
def unary? (a : Arith) : String → Option (Binary32 → Binary32)
  | "sin" => some a.sin
  | "cos" => some a.cos
  | "tan" => some a.tan
  | "exp" => some a.exp
  | "log" => some a.log
  | "sqrt" => some a.sqrt
  | "abs" => some a.abs
  | "floor" => some a.floor
  | "fract" => some a.fract
  | _ => none

/-- Functions of two components. -/
def binary? (a : Arith) : String → Option (Binary32 → Binary32 → Binary32)
  | "min" => some a.min
  | "max" => some a.max
  | "pow" => some a.pow
  | "mod" => some a.mod
  | "step" => some a.step
  | _ => none

def countError (f : String) (want : Nat) (args : List Value) : Error :=
  .cause (.builtinArgumentCount f want args.length)

def clamp (a : Arith) (x lo hi : Value) : Except Error Value := do
  let y ← zip a.max x lo
  zip a.min y hi

def mix (a : Arith) (x y t : Value) : Except Error Value := do
  let d ← zip a.sub y x
  let d ← zip a.mul d t
  zip a.add x d

/-- The edges have the shape of the argument, or are single numbers. -/
def smoothstep (a : Arith) (e0 e1 x : Value) : Except Error Value :=
  if e0.shape = e1.shape ∧ (e0.shape = x.shape ∨ e0.shape = .float) then
    let edge := fun (e : Value) (i : Nat) => if e0.shape = .float then e.lane 0 else e.lane i
    .ok (build x.shape fun i => a.smoothstep (edge e0 i) (edge e1 i) (x.lane i))
  else .error (.cause (.incompatibleArguments "smoothstep" [e0.shape, e1.shape, x.shape]))

/-- Arguments of a function must be vectors of the shape of the first. -/
def requireVectors (f : String) (first : Shape) : List Value → Except Error Unit
  | [] => .ok ()
  | v :: vs =>
    if v.shape.isVector && v.shape = first then requireVectors f first vs
    else .error (.cause (.vectorsRequired f v.shape))

def cross (a : Arith) (x y : Value) : Except Error Value :=
  if x.shape = .vec3 then
    let minor := fun i j => a.sub (a.mul (x.lane i) (y.lane j)) (a.mul (x.lane j) (y.lane i))
    .ok (ofList .vec3 [minor 1 2, minor 2 0, minor 0 1])
  else .error (.cause .crossRequiresVec3)

def faceforward (a : Arith) (n i ref : Value) : Value :=
  if a.lt (dot a ref i) 0 then n else n.map a.neg

def reflect (a : Arith) (i n : Value) : Except Error Value :=
  let k := a.mul 2 (dot a n i)
  zip (fun i n => a.sub i (a.mul k n)) i n

def refract (a : Arith) (i n eta : Value) : Except Error Value :=
  if i.shape.isVector && n.shape = i.shape && eta.shape = .float then
    let eta := eta.lane 0
    let d := dot a n i
    let k := a.sub 1 (a.mul (a.mul eta eta) (a.sub 1 (a.mul d d)))
    if a.lt k 0 then .ok (zero i.shape)
    else
      let m := a.add (a.mul eta d) (a.sqrt k)
      zip (fun i n => a.sub (a.mul eta i) (a.mul m n)) i n
  else .error (.cause (.incompatibleArguments "refract" [i.shape, n.shape, eta.shape]))

def matrixCompMult (a : Arith) (x y : Value) : Except Error Value :=
  if x.shape.isMatrix && x.shape = y.shape then zip a.mul x y
  else .error (.cause (.incompatibleArguments "matrixCompMult" [x.shape, y.shape]))

/-- Functions of vectors of one shape, after their arguments are found to be such. -/
def geometric (a : Arith) (f : String) (args : List Value) : Except Error Value :=
  match f, args with
  | "dot", [x, y] => .ok (ofFloat (dot a x y))
  | "length", [x] => .ok (ofFloat (length a x))
  | "distance", [x, y] => do
    let d ← zip a.sub x y
    return ofFloat (length a d)
  | "normalize", [x] =>
    let inv := a.div 1 (length a x)
    .ok (x.map fun c => a.mul c inv)
  | "cross", [x, y] => cross a x y
  | "faceforward", [n, i, ref] => .ok (faceforward a n i ref)
  | "reflect", [i, n] => reflect a i n
  | _, _ => .error (.cause (.unknownFunction f))

/-- How many arguments a function of vectors of one shape takes. -/
def geometricArity? : String → Option Nat
  | "dot" | "distance" | "cross" | "reflect" => some 2
  | "length" | "normalize" => some 1
  | "faceforward" => some 3
  | _ => none

/-- Functions with operands of different roles. -/
def mixed (a : Arith) (f : String) (args : List Value) : Except Error Value :=
  match f, args with
  | "clamp", [x, lo, hi] => clamp a x lo hi
  | "mix", [x, y, t] => mix a x y t
  | "smoothstep", [e0, e1, x] => smoothstep a e0 e1 x
  | "refract", [i, n, eta] => refract a i n eta
  | "matrixCompMult", [x, y] => matrixCompMult a x y
  | _, _ => .error (.cause (.unknownFunction f))

/-- How many arguments a function with operands of different roles takes. -/
def mixedArity? : String → Option Nat
  | "clamp" | "mix" | "smoothstep" | "refract" => some 3
  | "matrixCompMult" => some 2
  | _ => none

/-- A call of a constructor or of a built-in function. -/
def call (a : Arith) (f : String) (args : List Value) : Except Error Value :=
  match Shape.ofName? f with
  | some s => construct s args
  | none =>
    match unary? a f with
    | some g =>
      match args with
      | [x] => .ok (x.map g)
      | _ => .error (countError f 1 args)
    | none =>
      match binary? a f with
      | some g =>
        match args with
        | [x, y] => zip g x y
        | _ => .error (countError f 2 args)
      | none =>
        match mixedArity? f with
        | some n => if args.length = n then mixed a f args else .error (countError f n args)
        | none =>
          match geometricArity? f with
          | some n =>
            if args.length = n then do
              requireVectors f (args.headD default).shape args
              geometric a f args
            else .error (countError f n args)
          | none => .error (.cause (.unknownFunction f))

end Builtin

end ShaderExpr
