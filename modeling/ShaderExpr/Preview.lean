import ShaderExpr.Description
import ShaderExpr.Render

/-!
# Previews

A preview is a program that draws a block over the whole of a window. The block may ask for the place of
a pixel, for the time and for the size of the window.
-/

namespace ShaderExpr

namespace Preview

/-- The input that holds the seconds since the start. -/
def timeInput : Input := ⟨"time", .float⟩

/-- The input that holds the size of the window in pixels. -/
def sizeInput : Input := ⟨"resolution", .vec2⟩

/-- The attribute that holds the corners of the window. -/
def cornerInput : Input := ⟨"aPos", .vec2⟩

/-- The binding of the vertex block that holds the place of a corner. -/
def placeBinding : String := "texCoord"

/-- The inputs of a block that become uniforms: all but the place of a pixel. -/
def uniforms (place : String) (inputs : List Input) : Except Error (List Input) :=
  (inputs.filter (· ≠ ⟨place, .vec2⟩)).mapM fun i =>
    if i = timeInput || i = sizeInput then .ok i else .error (.cause (.previewInput i.shape i.name))

/-- The define step of the vertex block: corners go from minus one to one, places from zero to one. -/
def cornerStep (_ : Scope) : Draft :=
  let corner : Lookup := ⟨cornerInput.name, .vec2⟩
  let half := Expr.literalOf .float [0.5]
  let place := do
    let scaled ← Expr.apply Operation.scale.code (some corner.expr) [some half]
    Expr.apply Operation.add.code (some scaled) [some (Expr.literalOf .vec2 [0.5, 0.5])]
  let position := (Combiner.ofList
    [corner.expr, .literalOf .float [0], .literalOf .float [1]]).toShape .vec4
  let failure := match position with
    | .ok _ => none
    | .error e => some e
  ⟨[corner], [⟨placeBinding, place.toOption⟩, ⟨returnName, position.toOption⟩], failure⟩

/-- The vertex stage: it hands the place of a corner on. -/
def vertexStage (place : String) : Outcome Stage := do
  let b ← Block.Attempt.outcome (Block.ofInputs [cornerInput])
  let b ← Outcome.ofError (b.define (some cornerStep)).result
  Outcome.ofError (b.stage Program.vertexTarget [⟨place, placeBinding⟩])

/-- The shape that the result of a previewed block has. -/
def checkResult (b : Block) : Except Error Unit := do
  let result ← b.returns
  if result.shape ≠ .vec4 then .error (.cause (.previewResult result.shape))

/-- The program that draws a block. -/
def program (b : Block) (place : String) (functions : List Function) : Outcome Program := do
  let place := if place.isEmpty then Rendering.defaultPlace else place
  let uniforms ← Outcome.ofError (uniforms place b.inputs)
  Outcome.ofError (checkResult b)
  let vertex ← vertexStage place
  let fragment ← Outcome.ofError (b.stage Program.defaultOut.name [])
  let p : Program :=
    ⟨"", uniforms.map Input.param, [cornerInput.param], [⟨Shape.vec2.name, place⟩], Program.defaultOut,
      vertex, fragment, functions⟩
  Outcome.ofError p.check
  return p

/-- Opens a window for a block. There is no window system to open it with. -/
def window (b : Block) (place : String) (functions : List Function) : Outcome Unit := do
  let _ ← program b place functions
  Outcome.fail .windowUnavailable

end Preview

end ShaderExpr
