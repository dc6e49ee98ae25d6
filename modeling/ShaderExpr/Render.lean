import ShaderExpr.Evaluator
import ShaderExpr.Image

/-!
# Rendering

A block becomes an image: it is run once per pixel, with the place of the pixel as an input, and its
result gives the color. One evaluator and one table of values serve for all pixels, row by row.
-/

namespace ShaderExpr

/-- How a block is rendered. -/
structure Rendering where
  width : Int
  height : Int
  /-- The name of the input that holds the place of a pixel; `uv` if empty. -/
  place : String
  /-- The values of the other inputs. -/
  inputs : Table Value
  functions : List Function
  /-- How a single number becomes a color, if not gray. -/
  colormap : Option (Binary32 → Color)
  caption : String

namespace Rendering

/-- The usual name of the input that holds the place of a pixel. -/
def defaultPlace : String := "uv"

def placeName (r : Rendering) : String := if r.place.isEmpty then defaultPlace else r.place

/-- The place of a pixel: from the lower left corner, each direction from zero to one. -/
def placeOf (a : Arith) (r : Rendering) (x y : Nat) : Value :=
  let u := a.div (a.add (.ofInt x) 0.5) (.ofInt r.width)
  let v := a.sub 1 (a.div (a.add (.ofInt y) 0.5) (.ofInt r.height))
  .ofList .vec2 [u, v]

/-- What goes from one pixel to the next: the evaluator and the values of the inputs. -/
structure Scan where
  evaluator : Evaluator
  values : Table Value

/-- Runs a block at a pixel. The evaluator has forgotten nothing yet, and the place of the pixel before is
still among the values. -/
def paint (a : Arith) (r : Rendering) (b : Block) (x y : Nat) : StateT Scan Outcome Pixel := fun s => do
  let values := s.values.insert r.placeName (r.placeOf a x y)
  let (ev, result) := s.evaluator.run a b values
  Outcome.inside (.pixel x y) result
  let v ← Outcome.ofError (ev.lookup returnName)
  return (Pixel.ofColor (v.color a r.colormap), ⟨ev, values⟩)

/-- What can be found wrong before any pixel: the size, and the shape of the result. -/
def check (r : Rendering) (b : Block) : Except Error Unit := do
  if r.width ≤ 0 || r.height ≤ 0 then .error (.cause .emptyImage)
  let result ← b.returns
  if result.shape.isMatrix then .error (.cause (.matrixResult result.shape))

/-- The image of a block. -/
def image (a : Arith) (r : Rendering) (b : Block) : Outcome Image := do
  Outcome.ofError (r.check b)
  let ev ← Outcome.ofError (Evaluator.empty.defineAll r.functions)
  let (i, _) ← (Image.buildM r.width.toNat r.height.toNat (r.paint a b)).run ⟨ev, r.inputs⟩
  return i.addCaption r.caption

end Rendering

end ShaderExpr
