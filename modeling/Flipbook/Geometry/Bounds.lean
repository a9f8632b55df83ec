import Flipbook.Geometry.Point

/-!
# Bounding boxes

The least box that holds a drawing. Coordinates without a value are left out, and a drawing without
a least abscissa has the box of the origin.
-/

namespace Flipbook

/-- A box with sides parallel to the axes. -/
@[ext]
structure Bounds (α : Type) where
  /-- The left side. -/
  minX : α
  /-- The lower side. -/
  minY : α
  /-- The right side. -/
  maxX : α
  /-- The upper side. -/
  maxY : α
  deriving DecidableEq, Repr

namespace Bounds

variable {α : Type} [Scalar α]

/-- The least and the greatest value seen so far, after one more; a value that does not compare
with itself does not count. -/
def widen (seen : Option (α × α)) (v : α) : Option (α × α) :=
  if v ≤ v then
    match seen with
    | none => some (v, v)
    | some (low, high) => some (if v < low then v else low, if high < v then v else high)
  else seen

/-- The least and the greatest of some values, if any of them has a value. -/
def extremes (vs : List α) : Option (α × α) :=
  vs.foldl widen none

/-- The box that is the origin. -/
def zero : Bounds α :=
  ⟨Scalar.ofInt 0, Scalar.ofInt 0, Scalar.ofInt 0, Scalar.ofInt 0⟩

/-- A quotient beyond all numbers, where there is one. -/
def unbounded (sign : Int) : α :=
  Scalar.ofInt sign / Scalar.ofInt 0

/-- The bounding box of a drawing. If no ordinate has a value, the box is turned inside out. -/
def ofStrokes (strokes : List (Stroke α)) : Bounds α :=
  let points := strokes.flatten
  match extremes (points.map Point.x) with
  | none => zero
  | some (minX, maxX) =>
    if !Scalar.isFinite minX && decide (Scalar.ofInt 0 < minX) then zero
    else
      match extremes (points.map Point.y) with
      | none => ⟨minX, unbounded 1, maxX, unbounded (-1)⟩
      | some (minY, maxY) => ⟨minX, minY, maxX, maxY⟩

end Bounds

/-- A drawing together with its bounding box. -/
structure Drawing (α : Type) where
  /-- The strokes, in drawing order. -/
  strokes : List (Stroke α)
  /-- The bounding box of the strokes. -/
  bounds : Bounds α
  deriving DecidableEq, Repr

/-- The drawing that strokes make. -/
def Drawing.ofStrokes {α : Type} [Scalar α] (strokes : List (Stroke α)) : Drawing α where
  strokes := strokes
  bounds := Bounds.ofStrokes strokes

end Flipbook
