import ShaderExpr.Error
import ShaderExpr.Yaml.Node
import ShaderExpr.Yaml.Token.Stream

/-!
# Documents

The tree of the first document of a text, read from its tokens. Where a node may be left out, an empty
scalar stands for it.
-/

namespace ShaderExpr.Yaml

/-- The state of reading nodes. -/
structure NodeReader where
  tokens : List Token
  /-- Names of anchors with the index of what they name, latest first. -/
  names : List (String × Nat)
  anchors : Anchors

/-- Reading nodes ends early at an error. -/
abbrev Reading := StateT NodeReader Option

namespace Reading

/-- The next token. -/
def peek : Reading Token := do
  match (← get).tokens with
  | t :: _ => return t
  | [] => failure

/-- Passes the next token. -/
def skip : Reading Unit := modify fun r => { r with tokens := r.tokens.drop 1 }

/-- Passes the next token if it is of a kind. -/
def skipIf (kind : TokenKind) : Reading Bool := do
  if (← peek).kind = kind then
    skip
    return true
  else return false

/-- An empty scalar on a line counted from zero. -/
def emptyScalar (line : Nat) : Node := .scalar (line + 1) .null ""

/-- Gives an anchor the next index; what it names is known later. -/
def openAnchor : Option String → Reading (Option Nat)
  | none => return none
  | some name => do
    let r ← get
    set { r with names := (name, r.anchors.size) :: r.names, anchors := r.anchors.push (.absent 0) }
    return some r.anchors.size

/-- Says what an anchor names. -/
def closeAnchor (index : Option Nat) (n : Node) : Reading Node := do
  match index with
  | none => return n
  | some i =>
    modify fun r => { r with anchors := r.anchors.setIfInBounds i n }
    return n

/-- An alias of the node that a name names. -/
def resolveAlias (line : Nat) (name : String) : Reading Node := do
  match (← get).names.lookup name with
  | some i => return .alias (line + 1) name (some i)
  | none => failure

/-- Handles of tags and what they stand for. -/
abbrev Handles := List (String × String)

/-- What stands before a node: its anchor and its tag in full, and the line of the first of them. -/
structure Properties where
  line : Option Nat
  anchor : Option String
  tag : Option String

/-- The full form of a tag. It may not be empty, unless it has no handle. -/
def fullTag (handles : Handles) (handle suffix : String) : Option String :=
  if handle.isEmpty then some suffix
  else do
    let start ← handles.lookup handle
    if (start ++ suffix).isEmpty then none else some (start ++ suffix)

/-- Passes the anchor and the tag before a node, in either order. -/
def properties (handles : Handles) : Reading Properties := do
  let t ← peek
  match t.kind with
  | .anchor name =>
    skip
    match (← peek).kind with
    | .tag handle suffix =>
      skip
      return ⟨some t.line, some name, some (← fullTag handles handle suffix)⟩
    | _ => return ⟨some t.line, some name, none⟩
  | .tag handle suffix =>
    skip
    match (← peek).kind with
    | .anchor name =>
      skip
      return ⟨some t.line, some name, some (← fullTag handles handle suffix)⟩
    | _ => return ⟨some t.line, none, some (← fullTag handles handle suffix)⟩
  | _ => return ⟨none, none, none⟩

/-- The tag of a scalar. A tag of only an exclamation mark says nothing. -/
def scalarTag (tag : Option String) (text : String) (isPlain : Bool) : Tag :=
  match tag with
  | none | some "" | some "!" => if isPlain then .ofPlain text else .str
  | some name => .ofFull name

def scalar (p : Properties) (line : Nat) (text : String) (isPlain : Bool) : Reading Node := do
  let i ← openAnchor p.anchor
  closeAnchor i (.scalar (p.line.getD line + 1) (scalarTag p.tag text isPlain) text)

/-- A collection: its anchor has an index before its content is read. -/
def collection (p : Properties) (line : Nat) (make : Nat → List Node → Node)
    (content : Reading (List Node)) : Reading Node := do
  let i ← openAnchor p.anchor
  let content ← content
  closeAnchor i (make (p.line.getD line + 1) content)

mutual

/-- A node. Block collections may be forbidden; a sequence without indentation may be allowed. -/
def node (handles : Handles) : Nat → Bool → Bool → Reading Node
  | 0, _, _ => failure
  | fuel + 1, block, indentless => do
    let t ← peek
    match t.kind with
    | .alias name =>
      skip
      resolveAlias t.line name
    | _ =>
      let p ← properties handles
      let t ← peek
      match t.kind, block, indentless with
      | .blockEntry, _, true => collection p t.line .sequence (indentlessEntries handles fuel)
      | .scalar text isPlain, _, _ =>
        skip
        scalar p t.line text isPlain
      | .flowSequenceStart, _, _ =>
        skip
        collection p t.line .sequence (flowEntries handles fuel true)
      | .flowMappingStart, _, _ =>
        skip
        collection p t.line .mapping (flowPairs handles fuel true)
      | .blockSequenceStart, true, _ =>
        skip
        collection p t.line .sequence (blockEntries handles fuel)
      | .blockMappingStart, true, _ =>
        skip
        collection p t.line .mapping (blockPairs handles fuel)
      | _, _, _ =>
        if p.anchor.isSome || p.tag.any (!·.isEmpty) then scalar p t.line "" true else failure

/-- A node, or an empty scalar if a token of certain kinds comes next. -/
def nodeUnless (handles : Handles) : Nat → List TokenKind → Bool → Bool → Nat → Reading Node
  | 0, _, _, _, _ => failure
  | fuel + 1, ends, block, indentless, line => do
    if ends.contains (← peek).kind then return emptyScalar line
    else node handles fuel block indentless

/-- The entries of a block sequence up to its end. -/
def blockEntries (handles : Handles) : Nat → Reading (List Node)
  | 0 => failure
  | fuel + 1 => do
    let t ← peek
    skip
    match t.kind with
    | .blockEntry =>
      let n ← nodeUnless handles fuel [.blockEntry, .blockEnd] true false t.line
      return n :: (← blockEntries handles fuel)
    | .blockEnd => return []
    | _ => failure

/-- The entries of a sequence at the indentation of the mapping around it. -/
def indentlessEntries (handles : Handles) : Nat → Reading (List Node)
  | 0 => failure
  | fuel + 1 => do
    let t ← peek
    match t.kind with
    | .blockEntry =>
      skip
      let n ← nodeUnless handles fuel [.blockEntry, .key, .value, .blockEnd] true false t.line
      return n :: (← indentlessEntries handles fuel)
    | _ => return []

/-- Keys and values of a block mapping up to its end. -/
def blockPairs (handles : Handles) : Nat → Reading (List Node)
  | 0 => failure
  | fuel + 1 => do
    let t ← peek
    skip
    match t.kind with
    | .key =>
      let k ← nodeUnless handles fuel [.key, .value, .blockEnd] true true t.line
      let v ← blockValue handles fuel
      return k :: v :: (← blockPairs handles fuel)
    | .blockEnd => return []
    | _ => failure

/-- The value of a pair of a block mapping. -/
def blockValue (handles : Handles) : Nat → Reading Node
  | 0 => failure
  | fuel + 1 => do
    let t ← peek
    match t.kind with
    | .value =>
      skip
      nodeUnless handles fuel [.key, .value, .blockEnd] true true t.line
    | _ => return emptyScalar t.line

/-- The entries of a sequence in brackets up to its end. -/
def flowEntries (handles : Handles) : Nat → Bool → Reading (List Node)
  | 0, _ => failure
  | fuel + 1, first => do
    if ← skipIf .flowSequenceEnd then return []
    if !first then
      if !(← skipIf .flowEntry) then failure
    let t ← peek
    match t.kind with
    | .flowSequenceEnd =>
      skip
      return []
    | .key =>
      skip
      let n ← collection ⟨none, none, none⟩ t.line .mapping (flowPair handles fuel)
      return n :: (← flowEntries handles fuel false)
    | _ =>
      let n ← node handles fuel false false
      return n :: (← flowEntries handles fuel false)

/-- The key and the value of a pair that is an entry of a sequence. A missing key takes the place of
the token behind it. -/
def flowPair (handles : Handles) : Nat → Reading (List Node)
  | 0 => failure
  | fuel + 1 => do
    let t ← peek
    let k ← match t.kind with
      | .value | .flowEntry | .flowSequenceEnd => do
        skip
        pure (emptyScalar t.line)
      | _ => node handles fuel false false
    let t ← peek
    let v ← if ← skipIf .value then
        nodeUnless handles fuel [.flowEntry, .flowSequenceEnd] false false t.line
      else pure (emptyScalar t.line)
    return [k, v]

/-- Keys and values of a mapping in braces up to its end. -/
def flowPairs (handles : Handles) : Nat → Bool → Reading (List Node)
  | 0, _ => failure
  | fuel + 1, first => do
    if ← skipIf .flowMappingEnd then return []
    if !first then
      if !(← skipIf .flowEntry) then failure
    let t ← peek
    match t.kind with
    | .flowMappingEnd =>
      skip
      return []
    | .key =>
      skip
      let line := (← peek).line
      let k ← nodeUnless handles fuel [.value, .flowEntry, .flowMappingEnd] false false line
      let v ← flowValue handles fuel
      return k :: v :: (← flowPairs handles fuel false)
    | _ =>
      let k ← node handles fuel false false
      let line := (← peek).line
      return k :: emptyScalar line :: (← flowPairs handles fuel false)

/-- The value of a pair of a mapping in braces. -/
def flowValue (handles : Handles) : Nat → Reading Node
  | 0 => failure
  | fuel + 1 => do
    if ← skipIf .value then
      let line := (← peek).line
      nodeUnless handles fuel [.flowEntry, .flowMappingEnd] false false line
    else return emptyScalar (← peek).line

end

/-! ## The first document -/

/-- The handles that every document knows. -/
def commonHandles : Handles := [("!", "!"), ("!!", Tag.commonStart)]

/-- Directives before a document. There is at most one of the version, which is 1.1, and each handle is
given at most once; a handle may stand for something else than it commonly does. -/
def directives : Nat → Bool → Handles → Reading Handles
  | 0, _, _ => failure
  | fuel + 1, versioned, handles => do
    match (← peek).kind with
    | .versionDirective major minor =>
      if versioned || major ≠ 1 || minor ≠ 1 then failure
      skip
      directives fuel true handles
    | .tagDirective handle expansion =>
      if (handles.lookup handle).isSome then failure
      skip
      directives fuel versioned (handles ++ [(handle, expansion)])
    | _ => return handles ++ commonHandles

/-- The node of the first document, or nothing if there is no document. -/
def firstDocument (fuel : Nat) : Reading (Option Node) := do
  let explicit ← match (← peek).kind with
    | .streamEnd => return none
    | .versionDirective .. | .tagDirective .. | .documentStart => pure true
    | _ => pure false
  let n ← if explicit then do
      let handles ← directives fuel false []
      if !(← skipIf .documentStart) then failure
      let t ← peek
      match t.kind with
      | .versionDirective .. | .tagDirective .. | .documentStart | .documentEnd | .streamEnd =>
        pure (emptyScalar t.line)
      | _ => node handles fuel true false
    else node commonHandles fuel true false
  let _ ← peek
  return some n

end Reading

namespace Document

/-- The first document of a list of tokens, or nothing if there is none. Between two tokens that are
passed there are never more than four calls, which the fuel allows for. -/
def ofTokens? (tokens : List Token) : Option (Option Document) := do
  let (root, r) ← (Reading.firstDocument (4 * tokens.length + 4)).run ⟨tokens, [], #[]⟩
  return root.map fun n => ⟨n, r.anchors⟩

/-- The first document of a text, or nothing if there is none. -/
def read (text : String) : Except Error (Option Document) :=
  match ofTokens? (tokens text) with
  | some d => .ok d
  | none => .error (.cause .yaml)

end Document

end ShaderExpr.Yaml
