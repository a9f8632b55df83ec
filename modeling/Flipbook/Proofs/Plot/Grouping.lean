import Flipbook.Proofs.Geometry.Affine
import Flipbook.Proofs.Plot.Plotter

/-!
# Grouping of coordinates

An instruction that takes pairs of coordinates may be cut in two between any of them. The second
half finds the pen as the first one left it: raised behind `PU`, so that nothing is finished a second
time; lowered behind `PD`, so that no second stroke begins; and at the place that the next
displacement of `PR` counts from. For the same reason displacements may be replaced by the points
that they lead to.

What an instruction yields depends on the pen in front of it alone. So it is enough to compare two
ways to go on from there, and nothing has to be known of the instructions before and behind.

## Main definitions

* `Motion`: the instructions that take pairs of coordinates.
* `Pen.after`: the pen after some instructions.
* `partialSums`: the points that displacements lead to, as partial sums.

## Main results

* `Pen.run_append_congr`: what is drawn from a place on depends on the pen there;
* `Pen.run_along_append`: an instruction is cut in two;
* `run_regrouped`: the grouping of coordinates does not matter.
-/

namespace Flipbook.Plot

/-- The ways to go along points: with the pen up, with the pen down, as it is, and as it is by
displacements. -/
inductive Motion where
  | penUp | penDown | plotAbsolute | plotRelative
  deriving DecidableEq, Repr

/-- The instruction to go along points. -/
def Motion.along {α : Type} : Motion → List (Point α) → Instruction α
  | penUp => .penUp
  | penDown => .penDown
  | plotAbsolute => .moveTo
  | plotRelative => .moveBy

namespace Pen

variable {α : Type}

theorem travel_append (pen : Pen α) (first second : List (Point α)) :
    pen.travel (first ++ second) = (pen.travel first).travel second :=
  List.foldl_append

/-- On its way a pen stays up or down. -/
theorem down_travel (pen : Pen α) (points : List (Point α)) :
    (pen.travel points).down = pen.down := by
  induction points generalizing pen with
  | nil => rfl
  | cons q points ih =>
    have hstep : (pen.moveTo q).down = pen.down := by cases pen <;> rfl
    exact (ih _).trans hstep

theorem lift_eq_self {pen : Pen α} (h : pen.down = false) : pen.lift = pen := by
  cases pen with
  | raised p => rfl
  | lowered p earlier => cases h

theorem finished_eq_nil {pen : Pen α} (h : pen.down = false) : pen.finished = [] := by
  cases pen with
  | raised p => rfl
  | lowered p earlier => cases h

theorem lower_eq_self {pen : Pen α} (h : pen.down = true) : pen.lower = pen := by
  cases pen with
  | raised p => cases h
  | lowered p earlier => rfl

theorem down_lower (pen : Pen α) : pen.lower.down = true := by
  cases pen <;> rfl

theorem position_moveTo (pen : Pen α) (q : Point α) : (pen.moveTo q).position = q := by
  cases pen <;> rfl

end Pen

section Sums

variable {α : Type} [Scalar α]

/-- The points that displacements lead to: each is the sum of the start and of all displacements so
far. -/
def partialSums (start : Point α) (deltas : List (Point α)) : List (Point α) :=
  (deltas.scanl (· + ·) start).tail

theorem runningSums_eq_partialSums (start : Point α) (deltas : List (Point α)) :
    runningSums start deltas = partialSums start deltas := by
  have hscan : deltas.scanl (· + ·) start = start :: runningSums start deltas := by
    induction deltas generalizing start with
    | nil => rfl
    | cons d deltas ih =>
      rw [List.scanl_cons, ih]
      rfl
  rw [partialSums, hscan, List.tail_cons]

/-- Displacements count from where the ones before them have led. -/
theorem Pen.travel_runningSums_append (pen : Pen α) (first second : List (Point α)) :
    pen.travel (runningSums pen.position (first ++ second)) =
      (pen.travel (runningSums pen.position first)).travel
        (runningSums (pen.travel (runningSums pen.position first)).position second) := by
  induction first generalizing pen with
  | nil => rfl
  | cons d first ih =>
    have hnext := ih (pen.moveTo (pen.position + d))
    rw [position_moveTo] at hnext
    exact hnext

end Sums

variable {α : Type} [Trig α]

namespace Pen

/-- The pen after some instructions. -/
def after (pen : Pen α) (is : List (Instruction α)) : Pen α :=
  is.foldl (fun pen i => (pen.step i).1) pen

/-- What is drawn from a place on depends on the pen there. -/
theorem run_append_congr {pen : Pen α} {before is js : List (Instruction α)}
    (h : (pen.after before).run is = (pen.after before).run js) :
    pen.run (before ++ is) = pen.run (before ++ js) := by
  induction before generalizing pen with
  | nil => exact h
  | cons i before ih => rw [List.cons_append, run, ih h]; rfl

/-- An instruction may be replaced by two others that take the pen to the same place and yield the
same strokes. -/
theorem run_cons_congr {pen : Pen α} {i first second : Instruction α}
    (hpen : (pen.step i).1 = ((pen.step first).1.step second).1)
    (hstrokes : (pen.step i).2 = (pen.step first).2 ++ ((pen.step first).1.step second).2)
    (rest : List (Instruction α)) : pen.run (i :: rest) = pen.run (first :: second :: rest) := by
  rw [run, run, run, hpen, hstrokes, List.append_assoc]

/-- An instruction that takes pairs of coordinates is cut in two. -/
theorem run_along_append (pen : Pen α) (motion : Motion) (first second : List (Point α))
    (rest : List (Instruction α)) :
    pen.run (motion.along (first ++ second) :: rest) =
      pen.run (motion.along first :: motion.along second :: rest) := by
  cases motion with
  | penUp =>
    -- The second half finds the pen up: it lifts nothing and finishes nothing.
    have hup : (pen.lift.travel first).down = false := down_travel pen.lift first
    refine run_cons_congr ?_ ?_ rest
    · change pen.lift.travel (first ++ second) = (pen.lift.travel first).lift.travel second
      rw [lift_eq_self hup, travel_append]
    · change pen.finished = pen.finished ++ (pen.lift.travel first).finished
      rw [finished_eq_nil hup, List.append_nil]
  | penDown =>
    -- The second half finds the pen down, so that the stroke goes on.
    have hdown : (pen.lower.travel first).down = true :=
      (down_travel pen.lower first).trans pen.down_lower
    refine run_cons_congr ?_ rfl rest
    change pen.lower.travel (first ++ second) = (pen.lower.travel first).lower.travel second
    rw [lower_eq_self hdown, travel_append]
  | plotAbsolute =>
    refine run_cons_congr ?_ rfl rest
    exact travel_append pen first second
  | plotRelative =>
    -- The second half counts from where the first one has led.
    refine run_cons_congr ?_ rfl rest
    exact travel_runningSums_append pen first second

/-- Displacements may be replaced by the points that they lead to. -/
theorem run_moveBy (pen : Pen α) (deltas : List (Point α)) (rest : List (Instruction α)) :
    pen.run (.moveBy deltas :: rest) =
      pen.run (.moveTo (partialSums pen.position deltas) :: rest) := by
  rw [← runningSums_eq_partialSums]
  rfl

end Pen

/-- The grouping of coordinates does not matter: whatever the pen and the instructions around, an
instruction may be cut in two between its pairs, and displacements may be replaced by the points
that they lead to. -/
theorem run_regrouped (pen : Pen α) (before rest : List (Instruction α)) :
    (∀ (motion : Motion) (first second : List (Point α)),
      pen.run (before ++ motion.along (first ++ second) :: rest) =
        pen.run (before ++ motion.along first :: motion.along second :: rest)) ∧
    ∀ deltas : List (Point α),
      pen.run (before ++ .moveBy deltas :: rest) =
        pen.run (before ++ .moveTo (partialSums (pen.after before).position deltas) :: rest) := by
  constructor
  · intro motion first second
    exact Pen.run_append_congr (Pen.run_along_append _ motion first second rest)
  · intro deltas
    exact Pen.run_append_congr (Pen.run_moveBy _ deltas rest)

end Flipbook.Plot
