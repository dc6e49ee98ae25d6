import ShaderExpr.Yaml.Scalar

/-!
# Tokens of YAML text

The structure of a text as a flat list: indentation and indicators become starts and ends of
collections, and the keys of mappings are marked.
-/

namespace ShaderExpr.Yaml

/-- What a token is. -/
inductive TokenKind where
  | versionDirective (major minor : Nat)
  | tagDirective (handle expansion : String)
  | documentStart
  | documentEnd
  | blockSequenceStart
  | blockMappingStart
  | blockEnd
  | flowSequenceStart
  | flowSequenceEnd
  | flowMappingStart
  | flowMappingEnd
  | blockEntry
  | flowEntry
  | key
  | value
  | alias (name : String)
  | anchor (name : String)
  | tag (handle suffix : String)
  | scalar (text : String) (isPlain : Bool)
  | streamEnd
deriving DecidableEq, Repr, Inhabited

/-- A token and the line on which it starts, counted from zero. -/
structure Token where
  kind : TokenKind
  line : Nat
deriving DecidableEq, Repr, Inhabited

end ShaderExpr.Yaml
