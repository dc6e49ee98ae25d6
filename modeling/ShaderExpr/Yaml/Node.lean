import ShaderExpr.Yaml.Tag

/-!
# Nodes of YAML documents

A document is a tree of nodes. An alias refers to an anchored node by its index among the anchored
nodes of the document; the anchored node may contain the alias. Lines count from one.
-/

namespace ShaderExpr.Yaml

/-- A node of a document. -/
inductive Node where
  | scalar (line : Nat) (tag : Tag) (text : String)
  /-- Keys and values in turn. -/
  | mapping (line : Nat) (content : List Node)
  | sequence (line : Nat) (content : List Node)
  | alias (line : Nat) (name : String) (target : Option Nat)
  | document (line : Nat) (content : List Node)
  /-- No node at all. -/
  | absent (line : Nat)
deriving Repr, Inhabited

namespace Node

def line : Node → Nat
  | .scalar l _ _ | .mapping l _ | .sequence l _ | .alias l _ _ | .document l _ | .absent l => l

/-- The own text of a node: that of a scalar, the name of an alias. -/
def text : Node → String
  | .scalar _ _ s => s
  | .alias _ name _ => name
  | _ => ""

/-- What a node is called. -/
def kindName : Node → String
  | .scalar .. => "scalar"
  | .mapping .. => "mapping"
  | .sequence .. => "sequence"
  | .alias .. => "alias"
  | .document .. => "document"
  | .absent _ => "node"

/-- Is there nothing in a node? -/
def isEmpty : Node → Bool
  | .absent _ => true
  | .scalar _ tag _ => tag == .null
  | _ => false

/-- Is a node of the same kind as another, and of the same text? -/
def sameKey (a b : Node) : Bool := a.kindName == b.kindName && a.text == b.text

mutual

/-- How many nodes a tree has; aliases are not followed. -/
def size : Node → Nat
  | .mapping _ content | .sequence _ content | .document _ content => sizes content + 1
  | .scalar .. | .alias .. | .absent _ => 1

/-- How many nodes the trees of a list have. -/
def sizes : List Node → Nat
  | [] => 0
  | n :: ns => size n + sizes ns

end

end Node

/-- The anchored nodes of a document. -/
abbrev Anchors := Array Node

/-- The node that an alias refers to; any other node is what it is. -/
def Anchors.resolve (anchors : Anchors) : Node → Node
  | .alias _ _ (some i) => anchors.getD i (.absent 0)
  | .alias line _ none => .absent line
  | n => n

/-- A document: its node and all anchored nodes in it. -/
structure Document where
  root : Node
  anchors : Anchors
deriving Repr, Inhabited

end ShaderExpr.Yaml
