import Flipbook.Geometry.Bounds
import Flipbook.Geometry.Matrix

/-!
# Placing drawings on the canvas

## Main definitions

* `Bounds.fit`: the map that stretches a drawing to the canvas.
* `Pose.matrix`: the map of a pose; turning and scaling pivot on the centre of the canvas.
* `shiftStrokes`: the displacement of a whole frame.
-/

namespace Flipbook

/-- How an element is placed: a displacement, an anticlockwise turn in degrees, and the scale
factors of the axes. -/
@[ext]
structure Pose (α : Type) where
  /-- The displacement to the right. -/
  x : α
  /-- The displacement upwards. -/
  y : α
  /-- The turn in degrees, anticlockwise. -/
  rotation : α
  /-- The scale factor across. -/
  scaleX : α
  /-- The scale factor upwards. -/
  scaleY : α
  deriving DecidableEq, Repr

section Fit

variable {α : Type} [Scalar α]

open Scalar

/-- Centres a drawing on the canvas and stretches it, alike in both directions, until its more
constrained dimension fills the canvas. A drawing that is a single point is only centred. -/
def Bounds.fit (bounds : Bounds α) (area : Extent α) : Matrix α :=
  let spanX := area.spanX
  let spanY := area.spanY
  let dx := bounds.maxX - bounds.minX
  let dy := bounds.maxY - bounds.minY
  if isZero dx && isZero dy then
    Matrix.displacement (spanX / ofInt 2 - bounds.minX) (spanY / ofInt 2 - bounds.minY)
  else if abs dx < abs (spanX * dy / spanY) then
    let scale := spanY / dy
    ⟨scale, ofInt 0, ofInt 0, scale,
      (spanX - scale * dx) / ofInt 2 - scale * bounds.minX, -scale * bounds.minY⟩
  else
    let scale := spanX / dx
    ⟨scale, ofInt 0, ofInt 0, scale,
      -scale * bounds.minX, (spanY - scale * dy) / ofInt 2 - scale * bounds.minY⟩

/-- The pose that changes nothing. -/
def Pose.neutral : Pose α :=
  ⟨ofInt 0, ofInt 0, ofInt 0, ofInt 1, ofInt 1⟩

/-- Displaces a frame. Every point has to stay on the canvas, unless nothing is displaced. -/
def shiftStrokes (shift : Point α) (area : Extent α) (strokes : List (Stroke α)) :
    Except SourceError (List (Stroke α)) :=
  if isZero shift.x && isZero shift.y then .ok strokes
  else
    let shifted := (Matrix.displacement shift.x shift.y).applyStrokes strokes
    match shifted.flatten.find? fun p => !area.holds p with
    | some p =>
      .error (.shiftedOffScreen (toBinary64 shift.x) (toBinary64 shift.y) (toBinary64 p.x)
        (toBinary64 p.y))
    | none => .ok shifted

end Fit

/-- The map of a pose. Turning and scaling pivot on the centre of the canvas, and the displacement
comes last. A pose that neither turns nor scales is a plain displacement. -/
def Pose.matrix {α : Type} [Trig α] (pose : Pose α) (area : Extent α) : Matrix α :=
  if Scalar.isZero pose.rotation && Scalar.isOne pose.scaleX && Scalar.isOne pose.scaleY then
    if Scalar.isZero pose.x && Scalar.isZero pose.y then Matrix.one
    else Matrix.displacement pose.x pose.y
  else
    let centre := area.centre
    Matrix.product
      [Matrix.displacement pose.x pose.y, Matrix.displacement centre.x centre.y,
        Matrix.rotation pose.rotation, Matrix.scaling pose.scaleX pose.scaleY,
        Matrix.displacement (-centre.x) (-centre.y)]

end Flipbook
