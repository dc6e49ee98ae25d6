import ShaderExpr.Error

/-!
# Syntax trees

The expressions of shader source as trees. A tree knows no shapes: those are checked before it is
built. A part may be missing, when it came from an expression that was never given a tree; such a tree
is not complete and can not be written.
-/

namespace ShaderExpr

/-- A tree of an expression. -/
inductive Node where
  /-- A number or a constructor of numbers, already written. -/
  | literal (text : String)
  | var (name : String)
  | call (function : String) (args : List Node)
  | unary (op : String) (x : Node)
  | binary (op : String) (x y : Node)
  | missing
deriving Repr, Inhabited

namespace Node

mutual

/-- Equality of trees, decided part by part. -/
def beq : Node → Node → Bool
  | .literal s, .literal t => s == t
  | .var s, .var t => s == t
  | .call f xs, .call g ys => f == g && beqList xs ys
  | .unary f x, .unary g y => f == g && beq x y
  | .binary f x y, .binary g z w => f == g && beq x z && beq y w
  | .missing, .missing => true
  | _, _ => false

/-- Equality of lists of trees. -/
def beqList : List Node → List Node → Bool
  | [], [] => true
  | x :: xs, y :: ys => beq x y && beqList xs ys
  | _, _ => false

end

instance : BEq Node := ⟨beq⟩

/-- Literals and variables are written as one token and never need parentheses. -/
def isAtomic : Node → Bool
  | .literal _ | .var _ => true
  | _ => false

mutual

/-- No part of the tree is missing. -/
def isComplete : Node → Bool
  | .literal _ | .var _ => true
  | .call _ args => areComplete args
  | .unary _ x => isComplete x
  | .binary _ x y => isComplete x && isComplete y
  | .missing => false

/-- No part of any of the trees is missing. -/
def areComplete : List Node → Bool
  | [] => true
  | n :: ns => isComplete n && areComplete ns

end

/-- Parentheses around a text. -/
def parenthesized (s : String) : String := "(" ++ s ++ ")"

mutual

/-- The text of a part of a tree. The operand of an operator before it and the left operand of an
operator between two are put in parentheses unless they are atomic; the right operand never is. -/
def inner : Node → Except Fault String
  | .literal s => .ok s
  | .var s => .ok s
  | .call f args => do
    let texts ← inners args
    return f ++ parenthesized (", ".intercalate texts)
  | .unary op x => do
    let s ← inner x
    return op ++ (if x.isAtomic then s else parenthesized s)
  | .binary op x y => do
    let s ← inner x
    let t ← inner y
    return (if x.isAtomic then s else parenthesized s) ++ " " ++ op ++ " " ++ t
  | .missing => .error .brokenPart

/-- The texts of parts of a tree. -/
def inners : List Node → Except Fault (List String)
  | [] => .ok []
  | n :: ns => do
    let s ← inner n
    let rest ← inners ns
    return s :: rest

end

/-- The text of a whole tree. -/
def text : Node → Except Fault String
  | .missing => .error .missingNode
  | n => inner n

end Node

end ShaderExpr
