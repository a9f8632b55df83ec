/-!
# Lines of pixels

Bresenham's line between two pixels: one step along the longer axis at a time, and a step along the
other one whenever the accumulated error asks for it. The line goes on until it is at its end in
both coordinates. It is computed in whatever numbers the ends are given in. Between whole numbers it
comes to its end; with an end that is no number, or so far away that adding one changes nothing, it
goes on forever.

## Main definitions

* `LineState.step`: one step of a line.
* `LineState.walk`: goes along a line to its end, if there is one.
-/

namespace Flipbook.Raster

/-- A line under way: the current pixel and the accumulated error. -/
structure LineState (α : Type) where
  /-- The column of the current pixel. -/
  x : α
  /-- The row of the current pixel, counted from the bottom. -/
  y : α
  err : α
  deriving DecidableEq, Repr

variable {α σ : Type}

/-- The direction from one coordinate to another; it does not matter where they are equal. -/
def direction [LT α] [DecidableLT α] (a b : α) : Int :=
  if a < b then 1 else -1

namespace LineState

variable [Add α] [Neg α] [LE α] [DecidableLE α]

/-- One step from the current pixel toward the end. -/
def step (dx dy sx sy : α) (s : LineState α) : LineState α :=
  let twice := s.err + s.err
  let horizontal := decide (-dy ≤ twice)
  let vertical := decide (twice ≤ dx)
  let err := if horizontal then s.err + -dy else s.err
  { x := if horizontal then s.x + sx else s.x
    y := if vertical then s.y + sy else s.y
    err := if vertical then err + dx else err }

/-- Goes along a line and does something at each pixel, the current one and the end included. There
is no result if the line never comes to its end. -/
def walk [BEq α] (visit : σ → α → α → σ) (x₁ y₁ dx dy sx sy : α) (s : LineState α) (state : σ) :
    Option σ :=
  let state := visit state s.x s.y
  if s.x == x₁ && s.y == y₁ then some state
  else s.step dx dy sx sy |>.walk visit x₁ y₁ dx dy sx sy state
partial_fixpoint

end LineState

end Flipbook.Raster
