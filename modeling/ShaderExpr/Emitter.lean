import ShaderExpr.Program

/-!
# Writing sources

An emitter collects the source of a program, or of functions, in a buffer and hands the whole buffer to a
writer at once. The buffer stays with the emitter and is used again for the next source.
-/

namespace ShaderExpr

/-- A writer: it answers to a text how many bytes of it were taken, and an error if there was one. -/
abbrev Writer := String → Nat × Option Error

/-- The writer that takes everything. -/
def Writer.whole : Writer := fun text => (text.utf8ByteSize, none)

/-- A writer that is given text after text: how each of the writes is answered, counted from zero. -/
abbrev Sink := Nat → Writer

/-- The sink that takes everything. -/
def Sink.whole : Sink := fun _ => .whole

/-- The sink that takes so many writes and refuses those behind them. -/
def Sink.failingFrom (k : Nat) (e : Error) : Sink := fun i => if i < k then .whole else fun _ => (0, some e)

/-- What came of writing a source: the texts that the writer was given, one for each write, how many bytes
were taken, and why it failed. -/
structure Emission where
  writes : List String
  count : Nat
  failure : Option Failure

namespace Emission

/-- There was nothing to write. -/
def nothing : Emission := ⟨[], 0, none⟩

/-- Nothing was written. -/
def failed (f : Failure) : Emission := ⟨[], 0, some f⟩

/-- A text was written at once. -/
def written (w : Writer) (text : String) : Emission :=
  ⟨[text], (w text).1, (w text).2.map Failure.error⟩

/-- Goes on with what comes behind the writes so far, unless they failed. -/
def andThen (e : Emission) (next : Nat → Emission) : Emission :=
  match e.failure with
  | some _ => e
  | none =>
    let e' := next e.writes.length
    ⟨e.writes ++ e'.writes, e.count + e'.count, e'.failure⟩

/-- All that was written, if writing did not fail. -/
def text (e : Emission) : Outcome String :=
  match e.failure with
  | some f => .error f
  | none => .ok (String.join e.writes)

end Emission

/-- A buffer for sources. -/
structure Emitter where
  buffer : String
deriving DecidableEq, Repr, Inhabited

namespace Emitter

def new : Emitter := ⟨""⟩

/-- Adds pieces to the buffer, up to the first that has no text. -/
def collect (em : Emitter) : List (Outcome String) → Emitter × Outcome Unit
  | [] => (em, .ok ())
  | .error f :: _ => (em, .error f)
  | .ok s :: rest => collect ⟨em.buffer ++ s⟩ rest

/-- Fills the buffer anew with pieces and hands it to a writer. -/
def emit (em : Emitter) (w : Writer) (pieces : List (Outcome String)) : Emitter × Emission :=
  match { em with buffer := "" }.collect pieces with
  | (em, .error f) => (em, .failed f)
  | (em, .ok ()) => (em, .written w em.buffer)

/-- Writes both stages of a program that lacks nothing, each after a line that names it. -/
def writeProgram (em : Emitter) (w : Writer) (p : Program) : Emitter × Emission :=
  match p.check with
  | .error e => (em, .failed (.error e))
  | .ok () => em.emit w [.ok "#shader vertex\n", Outcome.ofFault p.vertexText,
      .ok "\n#shader fragment\n", Outcome.ofFault p.fragmentText]

/-- A function that lacks nothing, after what stands between functions. -/
def functionPieces (between : String) (fn : Function) : List (Outcome String) :=
  [(Outcome.ofError fn.checkNamed).map fun _ => between, Outcome.ofFault fn.text]

/-- Writes functions with an empty line between them. -/
def writeFunctions (em : Emitter) (w : Writer) (fns : List Function) : Emitter × Emission :=
  em.emit w (match fns with
    | [] => []
    | fn :: fns => functionPieces "" fn ++ fns.flatMap (functionPieces "\n"))

end Emitter

end ShaderExpr
