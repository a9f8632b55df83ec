import Flipbook.Geometry.Point

/-!
# Clipping segments

A segment is trimmed to the area whose points round to a pixel of the image: half a pixel beyond
the centres of the outermost pixels on every side. The segment is `p + t (q - p)` for `t` from 0 to
1, and each side of the area cuts off a part of the range of `t`.
-/

namespace Flipbook.Raster

variable {α : Type} [Scalar α]

open Scalar

/-- One side of the area: the points with `slope * t ≤ room` are inside. -/
structure Side (α : Type) where
  /-- How fast the segment approaches the side. -/
  slope : α
  /-- How far the side is from the start of the segment. -/
  room : α
  deriving DecidableEq, Repr

/-- The part of a range of `t` that lies inside a side, if any of it does. -/
def Side.trim (side : Side α) (range : α × α) : Option (α × α) :=
  if isZero side.slope then
    if side.room < ofInt 0 then none else some range
  else
    let t := side.room / side.slope
    if side.slope < ofInt 0 then
      if range.2 < t then none else some (if range.1 < t then t else range.1, range.2)
    else
      if t < range.1 then none else some (range.1, if t < range.2 then t else range.2)

/-- The left, right, lower and upper side of the area, as seen from a segment. -/
def sides (area : Extent α) (p q : Point α) : List (Side α) :=
  let dx := q.x - p.x
  let dy := q.y - p.y
  [⟨-dx, p.x + half⟩, ⟨dx, area.width - half - p.x⟩,
    ⟨-dy, p.y + half⟩, ⟨dy, area.height - half - p.y⟩]

/-- The point of a segment at `t`. -/
def pointAt (p q : Point α) (t : α) : Point α :=
  ⟨p.x + t * (q.x - p.x), p.y + t * (q.y - p.y)⟩

/-- The part of a segment that lies in the area, by its end points. An end that lies inside is kept
as it is. -/
def clip (area : Extent α) (p q : Point α) : Option (Point α × Point α) :=
  ((sides area p q).foldlM (fun range (side : Side α) => side.trim range) (ofInt 0, ofInt 1)).map
    fun (t₀, t₁) =>
      (if ofInt 0 < t₀ then pointAt p q t₀ else p, if t₁ < ofInt 1 then pointAt p q t₁ else q)

end Flipbook.Raster
