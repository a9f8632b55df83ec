import Flipbook.Number.Scalar
import Flipbook.Error

/-!
# Points, strokes and canvases

A drawing is a list of strokes, and a stroke is a run of points joined by straight segments. The
canvas has its origin in the lower left corner, with the ordinate running upwards. Drawings are placed
on the area that a canvas takes up in the plane.
-/

namespace Flipbook

/-- A point of the plane. -/
@[ext]
structure Point (α : Type) where
  x : α
  y : α
  deriving DecidableEq, Repr

/-- A run of points joined by straight segments. -/
abbrev Stroke (α : Type) : Type := List (Point α)

/-- The size of a canvas or an image in pixels. -/
structure Canvas where
  /-- The number of columns. -/
  width : Nat
  /-- The number of rows. -/
  height : Nat
  deriving DecidableEq, Repr

/-- Whether both coordinates are numbers, and not infinite ones. -/
def Point.isFinite {α : Type} [Scalar α] (p : Point α) : Bool :=
  Scalar.isFinite p.x && Scalar.isFinite p.y

/-- The error that a point has no place on a screen. -/
def Point.noScreenPosition {α : Type} [Scalar α] (p : Point α) : SourceError :=
  .noScreenPosition (Scalar.toBinary64 p.x) (Scalar.toBinary64 p.y)

/-- The size of an area of the plane. -/
structure Extent (α : Type) where
  width : α
  height : α
  deriving DecidableEq, Repr

section

variable {α : Type} [Scalar α]

/-- The area of a canvas. -/
def Canvas.extent (canvas : Canvas) : Extent α :=
  ⟨Scalar.ofNat canvas.width, Scalar.ofNat canvas.height⟩

namespace Extent

/-- The drawable width. On a canvas it ends at the centre of the last column, so that every point of
it rounds to a column. -/
def spanX (extent : Extent α) : α :=
  extent.width - Scalar.ofInt 1

/-- The drawable height. -/
def spanY (extent : Extent α) : α :=
  extent.height - Scalar.ofInt 1

/-- The centre of the drawable area. -/
def centre (extent : Extent α) : Point α :=
  ⟨extent.spanX / Scalar.ofInt 2, extent.spanY / Scalar.ofInt 2⟩

/-- Whether a point lies in the drawable area. -/
def holds (extent : Extent α) (p : Point α) : Bool :=
  decide (Scalar.ofInt 0 ≤ p.x) && decide (p.x ≤ extent.spanX) &&
    decide (Scalar.ofInt 0 ≤ p.y) && decide (p.y ≤ extent.spanY)

end Extent

end

end Flipbook
