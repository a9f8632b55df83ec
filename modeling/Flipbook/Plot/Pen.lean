import Flipbook.Plot.Instruction

/-!
# The pen of a plotter

The pen is either raised at a position, or lowered at the end of the stroke that it is drawing.
Each instruction moves the pen and yields the strokes that it finishes, so that the drawing of a
plot is the concatenation of what its instructions yield.

## Main definitions

* `Pen.step`: the effect of one instruction.
* `Pen.run`: the strokes of a sequence of instructions.
* `Plot.strokes`: the strokes of a plot file.
-/

namespace Flipbook.Plot

/-- The state of the pen. -/
inductive Pen (α : Type) where
  /-- Above the paper. -/
  | raised (position : Point α)
  /-- On the paper, with the earlier points of the stroke, the latest first. -/
  | lowered (position : Point α) (earlier : List (Point α))
  deriving DecidableEq, Repr

/-- The greatest angle, in degrees, that one chord of an arc spans. -/
def arcStep : Nat := 4

namespace Pen

variable {α : Type}

/-- Where the pen is. -/
def position : Pen α → Point α
  | raised p => p
  | lowered p _ => p

/-- The strokes that lifting the pen finishes: the one being drawn, if any. -/
def finished : Pen α → List (Stroke α)
  | raised _ => []
  | lowered p earlier => [(p :: earlier).reverse]

/-- The pen, lifted. -/
def lift (pen : Pen α) : Pen α :=
  raised pen.position

/-- The pen, lowered. A new stroke starts where the pen is. -/
def lower : Pen α → Pen α
  | raised p => lowered p []
  | pen => pen

/-- Moves the pen to a point; on the paper this draws. -/
def moveTo : Pen α → Point α → Pen α
  | raised _, q => raised q
  | lowered p earlier, q => lowered q (p :: earlier)

/-- Moves the pen along points. -/
def travel (pen : Pen α) (points : List (Point α)) : Pen α :=
  points.foldl moveTo pen

end Pen

/-- The points that displacements lead to, one after the other. -/
def runningSums {α : Type} [Scalar α] (start : Point α) : List (Point α) → List (Point α)
  | [] => []
  | d :: ds =>
    let next : Point α := ⟨start.x + d.x, start.y + d.y⟩
    next :: runningSums next ds

variable {α : Type} [Trig α]

open Scalar

/-- The number of chords of an arc. -/
def arcSteps (sweep : α) : Nat :=
  (max 1 (ceil (abs sweep / ofInt arcStep))).toNat

/-- The end points of the chords of an arc that starts at a point. The last one is computed from the
whole angle. -/
def arcPoints (start centre : Point α) (sweepDegrees : α) : List (Point α) :=
  let sweep := radians sweepDegrees
  let dx := start.x - centre.x
  let dy := start.y - centre.y
  let radius := Trig.sqrt (dx * dx + dy * dy)
  let theta := Trig.atan2 dy dx
  let steps := arcSteps sweepDegrees
  let onCircle (angle : α) : Point α :=
    ⟨centre.x + radius * Trig.cos angle, centre.y + radius * Trig.sin angle⟩
  (List.range (steps - 1)).map (fun i => onCircle (theta + sweep * ofNat (i + 1) / ofNat steps)) ++
    [onCircle (theta + sweep)]

namespace Pen

/-- The effect of an instruction: the pen behind it and the strokes that it finishes. -/
def step (pen : Pen α) : Instruction α → Pen α × List (Stroke α)
  | .reset => (raised ⟨ofInt 0, ofInt 0⟩, pen.finished)
  | .penUp points => (pen.lift.travel points, pen.finished)
  | .penDown points => (pen.lower.travel points, [])
  | .moveTo points => (pen.travel points, [])
  | .moveBy deltas => (pen.travel (runningSums pen.position deltas), [])
  | .arc centre sweep => (pen.travel (arcPoints pen.position centre sweep), [])

/-- The strokes that a sequence of instructions draws, the pen being lifted at the end. -/
def run (pen : Pen α) : List (Instruction α) → List (Stroke α)
  | [] => pen.finished
  | i :: rest => (pen.step i).2 ++ (pen.step i).1.run rest

/-- The pen before the first instruction. -/
def start : Pen α :=
  raised ⟨ofInt 0, ofInt 0⟩

end Pen

/-- The strokes of a plot file. -/
def strokes (text : String) : List (Stroke α) :=
  Pen.start.run (instructions text.toList)

end Flipbook.Plot
