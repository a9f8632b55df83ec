import Flipbook.Geometry.Point

/-!
# Screen coordinates

The terminals address a square of 1024 by 1024 points, whatever part of it is visible. Points are
rounded to it; a point that rounds outside cannot be drawn.
-/

namespace Flipbook.Device

variable {α : Type} [Scalar α]

/-- A point of the screen. -/
structure ScreenPoint where
  x : Nat
  /-- The row, counted from below. -/
  y : Nat
  deriving DecidableEq, Repr

/-- The number of columns and of rows of the screen. -/
def screenSize : Nat := 1024

/-- The point of the screen that a point rounds to. -/
def ScreenPoint.ofPoint (p : Point α) : Except SourceError ScreenPoint :=
  if !p.isFinite then .error p.noScreenPosition
  else
    let x := Scalar.round p.x
    let y := Scalar.round p.y
    if 0 ≤ x ∧ x < screenSize ∧ 0 ≤ y ∧ y < screenSize then .ok ⟨x.toNat, y.toNat⟩
    else .error (.offScreen x y)

/-- The points of the screen that drawings round to. -/
def screenStrokes (strokes : List (Stroke α)) : Except SourceError (List (List ScreenPoint)) :=
  strokes.mapM fun stroke => stroke.mapM ScreenPoint.ofPoint

/-- A point as part of a stroke: the pen either goes there without drawing, or draws on the way. -/
inductive PenMove where
  | goTo (p : ScreenPoint)
  | drawTo (p : ScreenPoint)
  deriving DecidableEq, Repr

/-- The moves of the pen for a stroke. A stroke of one point is a dot: the pen goes there and draws
to the same place. -/
def strokeMoves : List ScreenPoint → List PenMove
  | [] => []
  | [p] => [.goTo p, .drawTo p]
  | p :: rest => .goTo p :: rest.map .drawTo

end Flipbook.Device
