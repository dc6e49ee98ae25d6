import ShaderExpr.Expr

/-!
# Combining components

The components of several expressions, one after the other, may be taken as one expression of any
shape with as many components, the way constructors of shader source do it. Whether the number fits is
checked at the end.
-/

namespace ShaderExpr

/-- Expressions whose components are lined up. -/
structure Combiner where
  /-- How many components they have together. -/
  arity : Nat
  parts : List Node
deriving Repr, Inhabited

namespace Combiner

def empty : Combiner := ⟨0, []⟩

/-- Adds the components of an expression at the end. -/
def push (c : Combiner) (e : Expr) : Combiner := ⟨c.arity + e.shape.arity, c.parts ++ [e.node]⟩

/-- Adds an expression that must not be absent. -/
def push? (c : Combiner) : Option Expr → Except Fault Combiner
  | some e => .ok (c.push e)
  | none => .error .missingPart

/-- Lines up the components of expressions. -/
def ofList (es : List Expr) : Combiner := es.foldl push empty

/-- Lines up the components of expressions that must not be absent. -/
def ofOptions (es : List (Option Expr)) : Except Fault Combiner := es.foldlM push? empty

theorem foldlM_push?_map_some (c : Combiner) (es : List Expr) :
    (es.map some).foldlM push? c = .ok (es.foldl push c) := by
  induction es generalizing c with
  | nil => rfl
  | cons e es ih => exact ih (c.push e)

/-- Expressions none of which is absent are lined up. -/
theorem ofOptions_map_some (es : List Expr) : ofOptions (es.map some) = .ok (ofList es) :=
  foldlM_push?_map_some empty es

/-- The text of the parts, separated by commas. -/
def text (c : Combiner) : Except Fault String := do
  let texts ← c.parts.mapM Node.text
  return ", ".intercalate texts

/-- Takes the components as one expression of a shape. -/
def toShape (c : Combiner) (s : Shape) : Except Error Expr :=
  if c.arity = s.arity then .ok ⟨s, .call s.name c.parts⟩
  else .error (.cause (.combinedSize c.arity s))

/-- Takes the components as one expression of a shape given by number. -/
def toCode (c : Combiner) (code : ShapeCode) : Except Error Expr :=
  match code.shape? with
  | none => .error (.cause (.invalidTargetShape code.number))
  | some s => c.toShape s

end Combiner

end ShaderExpr
