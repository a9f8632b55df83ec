import Flipbook.Device.Coordinate

/-!
# Vectors for the 4010 terminal

A byte switches to graphics and so starts a stroke. Each point takes four bytes of five bits: high
and low part of the row, then of the column, each marked by its upper bits. A last byte switches
back to text.
-/

namespace Flipbook.Device

/-- The byte that starts a stroke. -/
def graphMode : UInt8 := 0x1D

/-- The byte that ends the drawing. -/
def alphaMode : UInt8 := 0x1F

/-- The four bytes of a point. -/
def tek4010Point (p : ScreenPoint) : List UInt8 :=
  [(0x20 + p.y / 32).toUInt8, (0x60 + p.y % 32).toUInt8, (0x20 + p.x / 32).toUInt8,
    (0x40 + p.x % 32).toUInt8]

/-- The bytes of a move of the pen. -/
def tek4010Move : PenMove → List UInt8
  | .goTo p => graphMode :: tek4010Point p
  | .drawTo p => tek4010Point p

/-- The bytes of a drawing. -/
def tek4010 {α : Type} [Scalar α] (strokes : List (Stroke α)) :
    Except SourceError (List UInt8) := do
  let points ← screenStrokes strokes
  .ok ((points.flatMap strokeMoves).flatMap tek4010Move ++ [alphaMode])

end Flipbook.Device
