import Flipbook.Device.Coordinate

/-!
# Vectors for the R12 graphics

Each move of the pen is a command of three bytes: the upper three bits of column and row with a bit
that tells whether the pen only goes there, then the lower seven bits of the column and of the row.
-/

namespace Flipbook.Device

/-- The bit that tells that the pen does not draw. -/
def goToFlag : Nat := 0x40

/-- The bytes of a command. -/
def r12Command (flag : Nat) (p : ScreenPoint) : List UInt8 :=
  [(flag + p.x / 128 * 8 + p.y / 128).toUInt8, (p.x % 128).toUInt8, (p.y % 128).toUInt8]

/-- The command of a move of the pen. -/
def r12Move : PenMove → List UInt8
  | .goTo p => r12Command goToFlag p
  | .drawTo p => r12Command 0 p

/-- The commands of a drawing. -/
def r12 {α : Type} [Scalar α] (strokes : List (Stroke α)) : Except SourceError (List UInt8) := do
  let points ← screenStrokes strokes
  .ok ((points.flatMap strokeMoves).flatMap r12Move)

end Flipbook.Device
