import ShaderExpr.Binary32.Elementary

/-!
# Lane arithmetic

The evaluator works lane by lane on single precision numbers and takes the operations of a lane as a
record. What it computes from them is the same for every record; `Arith.standard` is the one that
programs run with.
-/

namespace ShaderExpr

/-- The operations on one lane. -/
structure Arith where
  add : Binary32 → Binary32 → Binary32
  sub : Binary32 → Binary32 → Binary32
  mul : Binary32 → Binary32 → Binary32
  div : Binary32 → Binary32 → Binary32
  neg : Binary32 → Binary32
  sin : Binary32 → Binary32
  cos : Binary32 → Binary32
  tan : Binary32 → Binary32
  exp : Binary32 → Binary32
  log : Binary32 → Binary32
  sqrt : Binary32 → Binary32
  abs : Binary32 → Binary32
  floor : Binary32 → Binary32
  pow : Binary32 → Binary32 → Binary32
  min : Binary32 → Binary32 → Binary32
  max : Binary32 → Binary32 → Binary32
  /-- The nearest number between two bounds. -/
  clamp : Binary32 → Binary32 → Binary32 → Binary32
  /-- Less than; false on NaN. -/
  lt : Binary32 → Binary32 → Bool
  /-- At most; false on NaN. -/
  le : Binary32 → Binary32 → Bool

namespace Arith

/-- Rounded single precision arithmetic. -/
def standard : Arith where
  add := Binary32.add
  sub := Binary32.sub
  mul := Binary32.mul
  div := Binary32.div
  neg := Binary32.neg
  sin := Binary32.sin
  cos := Binary32.cos
  tan := Binary32.tan
  exp := Binary32.exp
  log := Binary32.log
  sqrt := Binary32.sqrt
  abs := Binary32.abs
  floor := Binary32.floor
  pow := Binary32.pow
  min := Binary32.min
  max := Binary32.max
  clamp := Binary32.clamp
  lt := Binary32.lt
  le := Binary32.le

/-- What is left of a number above the integer below it. -/
def fract (a : Arith) (x : Binary32) : Binary32 := a.sub x (a.floor x)

/-- The remainder of a division toward minus infinity. -/
def mod (a : Arith) (x y : Binary32) : Binary32 := a.sub x (a.mul y (a.floor (a.div x y)))

/-- One from the edge on, zero before it. -/
def step (a : Arith) (edge x : Binary32) : Binary32 := if a.le edge x then 1 else 0

/-- The cubic that rises from zero at one edge to one at the other. -/
def smoothstep (a : Arith) (e0 e1 x : Binary32) : Binary32 :=
  let t := a.div (a.sub x e0) (a.sub e1 e0)
  let t := a.max 0 (a.min 1 t)
  a.mul (a.mul t t) (a.sub 3 (a.mul 2 t))

end Arith

end ShaderExpr
