import Flipbook.Raster.Clip
import Flipbook.Raster.Image
import Flipbook.Raster.Line

/-!
# Drawing strokes on an image

A segment is clipped first, so that its cost is bounded by the size of the image, and then drawn
between the pixels that its ends round to. A stroke of one point is a dot. With machine numbers, the
extent of a segment may be infinite although its ends are not. It is clipped to an end that is no
number then, and drawing it goes on forever.
-/

namespace Flipbook

/-- The segments of a stroke. A single point is a segment without length. -/
def Stroke.segments {α : Type} : Stroke α → List (Point α × Point α)
  | [] => []
  | [p] => [(p, p)]
  | p :: q :: rest => (p :: q :: rest).zip (q :: rest)

namespace Raster

variable {α : Type} [Scalar α]

/-- Colours the pixel with the given coordinates, which are whole numbers if they are numbers. One
that is not on the image is dropped. -/
def Image.plotAt (image : Image) (colour : Colour) (x y : α) : Image :=
  if Scalar.isFinite x && Scalar.isFinite y then image.plot colour (Scalar.round x) (Scalar.round y)
  else image

/-- Goes along the line between the pixels that two points round to, if it has an end. -/
def walkBetween {σ : Type} (visit : σ → α → α → σ) (p q : Point α) (state : σ) : Option σ :=
  let x₀ := Scalar.rounded p.x
  let y₀ := Scalar.rounded p.y
  let x₁ := Scalar.rounded q.x
  let y₁ := Scalar.rounded q.y
  let dx := Scalar.abs (x₁ - x₀)
  let dy := Scalar.abs (y₁ - y₀)
  LineState.walk visit x₁ y₁ dx dy (Scalar.ofInt (direction x₀ x₁))
    (Scalar.ofInt (direction y₀ y₁)) ⟨x₀, y₀, dx - dy⟩ state

/-- Draws a segment that is already clipped, if its line has an end. -/
def Image.drawClipped (image : Image) (colour : Colour) (p q : Point α) : Option Image :=
  walkBetween (fun image x y => image.plotAt colour x y) p q image

/-- Draws a segment. Its ends must have a place in the plane, on the image or not. -/
def Image.drawLine (image : Image) (colour : Colour) (p q : Point α) : Except SourceError Image :=
  if !p.isFinite then .error p.noScreenPosition
  else if !q.isFinite then .error q.noScreenPosition
  else
    match clip image.canvas.extent p q with
    | none => .ok image
    | some (p, q) =>
      match image.drawClipped colour p q with
      | some image => .ok image
      | none => .error .endlessLine

/-- The image of a drawing on a black canvas. -/
def rasterize (canvas : Canvas) (colour : Colour) (strokes : List (Stroke α)) :
    Except SourceError Image :=
  (strokes.flatMap Stroke.segments).foldlM
    (fun image (p, q) => image.drawLine colour p q) (Image.blank canvas)

end Raster

end Flipbook
