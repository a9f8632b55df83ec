import Flipbook.Scene.Compose
import Flipbook.Scene.Library

/-!
# From scenes to strokes

Flattening a scene puts every drawing in its place on the canvas. The result is one list of
strokes, in drawing order.
-/

namespace Flipbook

variable {α : Type} [Trig α]

/-- The strokes of something to be drawn. -/
def Drawable.strokes (library : Library α) (canvas : Canvas) :
    Drawable α → Except Error (List (Stroke α))
  | .element _ source fit _ transform => do
    let drawing ← library.get source
    let m := if fit then transform.mul (drawing.bounds.fit canvas.extent) else transform
    .ok (m.applyStrokes drawing.strokes)
  | .line _ start finish => .ok [[start, finish]]

/-- The strokes of a scene. -/
def Scene.flatten (scene : Scene α) (library : Library α) (canvas : Canvas) :
    Except Error (List (Stroke α)) := do
  let parts ← scene.drawables.mapM (Drawable.strokes library canvas)
  .ok parts.flatten

end Flipbook
