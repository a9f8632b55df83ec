import Mathlib.Data.List.Basic
import Flipbook.Plot.Pen

/-!
# A plotter with a buffer

A plotter need not know where its strokes end before it draws them: it can keep the finished
strokes, the stroke being drawn, the position of the pen and whether the pen is down in four
places, and move the stroke over whenever the pen is lifted. The four places have to be changed
together. Between two instructions they always fit: there is a stroke being drawn exactly if the
pen is down, and it ends where the pen is. Such a state is that of a pen which finishes its strokes
itself, so that both draw the same.

## Main definitions

* `Plotter`: the four places; `Plotter.execute`: the effect of an instruction on them.
* `Plotter.Coherent`: they fit each other.
* `Plotter.ofPen`: the plotter of a pen.
* `Plotter.Continues`: what has become of the strokes after an instruction.

## Main results

* `Plotter.execute_ofPen`: an instruction has the same effect on a pen and on its plotter;
* `Plotter.Coherent.execute`: the four places fit after every instruction;
* `Plotter.Coherent.continues`: no instruction loses a stroke or finishes it twice;
* `Plotter.output_foldl_ofPen`: a plotter draws the strokes of its pen.
-/

namespace Flipbook.Plot

/-- A plotter, with what it has drawn. -/
structure Plotter (α : Type) where
  /-- The finished strokes, in drawing order. -/
  strokes : List (Stroke α)
  /-- The stroke that is being drawn, without points if there is none. -/
  current : Stroke α
  /-- Where the pen is. -/
  position : Point α
  /-- Whether the pen is down. -/
  down : Bool
  deriving DecidableEq, Repr

namespace Plotter

section Moves

variable {α : Type}

/-- Moves the stroke that is being drawn to the finished ones. If the pen is down, the next stroke
starts where it is. -/
def flush (s : Plotter α) : Plotter α :=
  { s with
    strokes := if s.current.isEmpty then s.strokes else s.strokes ++ [s.current]
    current := if s.down then [s.position] else [] }

/-- Lifts the pen and takes it to the last one of some points. -/
def lift (s : Plotter α) (points : List (Point α)) : Plotter α :=
  { ({ s with down := false } : Plotter α).flush with
    position := points.getLastD s.position }

/-- The stroke that is being drawn, or the one that starts where the pen is. -/
def begun (s : Plotter α) : Stroke α :=
  if s.current.isEmpty then [s.position] else s.current

/-- Lowers the pen and draws along some points. -/
def lower (s : Plotter α) (points : List (Point α)) : Plotter α :=
  { s with
    current := s.begun ++ points
    position := (s.begun ++ points).getLastD s.position
    down := true }

/-- Goes along some points without a change of the pen. -/
def go (s : Plotter α) (points : List (Point α)) : Plotter α :=
  if s.down then s.lower points else s.lift points

/-- All that has been drawn: the pen is lifted at the end. -/
def output (s : Plotter α) : List (Stroke α) :=
  ({ s with down := false } : Plotter α).flush.strokes

/-- The four places fit each other. -/
structure Coherent (s : Plotter α) : Prop where
  /-- A stroke is being drawn exactly if the pen is down. -/
  drawing_iff : s.current ≠ [] ↔ s.down = true
  /-- It ends where the pen is. -/
  ends : s.current ≠ [] → s.current.getLast? = some s.position

/-- What has become of the strokes of a plotter after an instruction: if the pen is up, the stroke
that was being drawn is finished, and nothing else is; if it is down, no stroke is finished, and
the one that was being drawn, or that starts where the pen was, goes on. -/
structure Continues (s t : Plotter α) : Prop where
  finished : t.strokes = if t.down then s.strokes else s.output
  current : ∃ points, t.current = if t.down then s.begun ++ points else []

theorem continues_lift (s : Plotter α) (points : List (Point α)) :
    s.Continues (s.lift points) :=
  ⟨rfl, [], rfl⟩

theorem continues_lower (s : Plotter α) (points : List (Point α)) :
    s.Continues (s.lower points) :=
  ⟨rfl, points, rfl⟩

theorem continues_go (s : Plotter α) (points : List (Point α)) : s.Continues (s.go points) := by
  rw [go]
  split
  · exact s.continues_lower points
  · exact s.continues_lift points

end Moves

section Execution

variable {α : Type} [Trig α]

/-- The plotter before the first instruction. -/
def start : Plotter α :=
  ⟨[], [], ⟨Scalar.ofInt 0, Scalar.ofInt 0⟩, false⟩

/-- The effect of an instruction. An arc is drawn chord by chord. -/
def execute (s : Plotter α) : Instruction α → Plotter α
  | .reset =>
    { s.flush with current := [], position := ⟨Scalar.ofInt 0, Scalar.ofInt 0⟩, down := false }
  | .penUp points => s.lift points
  | .penDown points => s.lower points
  | .moveTo points => s.go points
  | .moveBy deltas => s.go (runningSums s.position deltas)
  | .arc centre sweep => (arcPoints s.position centre sweep).foldl (fun s p => s.go [p]) s

end Execution

end Plotter

/-! ## The plotter of a pen -/

namespace Pen

variable {α : Type}

/-- The stroke that the pen is drawing. -/
def current : Pen α → Stroke α
  | raised _ => []
  | lowered p earlier => (p :: earlier).reverse

/-- Whether the pen is down. -/
def down : Pen α → Bool
  | raised _ => false
  | lowered _ _ => true

/-- A raised pen is where its way ends. -/
theorem travel_raised (p : Point α) (points : List (Point α)) :
    (raised p).travel points = raised (points.getLastD p) := by
  induction points generalizing p with
  | nil => rfl
  | cons q points ih => rw [List.getLastD_cons, ← ih q]; rfl

/-- A lowered pen draws its way. -/
theorem travel_lowered_concat (p q : Point α) (earlier points : List (Point α)) :
    (lowered p earlier).travel (points ++ [q]) = lowered q (points.reverse ++ p :: earlier) := by
  induction points generalizing p earlier with
  | nil => rfl
  | cons r points ih =>
    have hstep : (lowered p earlier).travel (r :: points ++ [q]) =
        (lowered r (p :: earlier)).travel (points ++ [q]) := rfl
    rw [hstep, ih, List.reverse_cons, List.append_assoc]
    rfl

end Pen

namespace Plotter

variable {α : Type}

/-- The plotter of a pen, with what has been drawn. -/
def ofPen (strokes : List (Stroke α)) (pen : Pen α) : Plotter α :=
  ⟨strokes, pen.current, pen.position, pen.down⟩

variable {strokes : List (Stroke α)} {pen : Pen α} {s : Plotter α}

theorem coherent_ofPen (strokes : List (Stroke α)) (pen : Pen α) :
    (ofPen strokes pen).Coherent := by
  cases pen with
  | raised p => exact ⟨by simp [ofPen, Pen.current, Pen.down], by simp [ofPen, Pen.current]⟩
  | lowered p earlier =>
    constructor <;> simp [ofPen, Pen.current, Pen.down, Pen.position]

/-- Four places that fit are those of a pen. -/
theorem Coherent.exists_eq_ofPen (h : s.Coherent) : ∃ pen, s = ofPen s.strokes pen := by
  obtain ⟨strokes, current, position, down⟩ := s
  obtain ⟨hdrawing, hends⟩ := h
  dsimp only at hdrawing hends ⊢
  rcases List.eq_nil_or_concat current with rfl | ⟨earlier, p, rfl⟩
  -- Whether a stroke is being drawn tells whether the pen is down, and its end is where the pen is.
  · obtain rfl : down = false := by simpa using hdrawing
    exact ⟨.raised position, rfl⟩
  · obtain rfl : p = position := by simpa using hends
    obtain rfl : down = true := by simpa using hdrawing
    exact ⟨.lowered p earlier.reverse, by simp [ofPen, Pen.current, Pen.position, Pen.down]⟩

theorem output_ofPen (strokes : List (Stroke α)) (pen : Pen α) :
    (ofPen strokes pen).output = strokes ++ pen.finished := by
  cases pen <;> simp [output, flush, ofPen, Pen.current, Pen.finished]

theorem lift_ofPen (points : List (Point α)) :
    (ofPen strokes pen).lift points =
      ofPen (strokes ++ pen.finished) (pen.lift.travel points) := by
  rw [← output_ofPen, Pen.lift, Pen.travel_raised]
  rfl

theorem lower_ofPen (points : List (Point α)) :
    (ofPen strokes pen).lower points = ofPen strokes (pen.lower.travel points) := by
  rcases List.eq_nil_or_concat points with rfl | ⟨earlier, q, rfl⟩
  · cases pen <;> simp [lower, begun, ofPen, Pen.current, Pen.lower, Pen.travel, Pen.position,
      Pen.down]
  · rw [List.concat_eq_append]
    -- Along at least one point, the way ends there, whatever has been drawn before.
    have hlast (ps : List (Point α)) (p : Point α) : (ps ++ (earlier ++ [q])).getLastD p = q := by
      rw [← List.append_assoc, List.getLastD_concat]
    cases pen <;> rw [Pen.lower, Pen.travel_lowered_concat, lower, hlast] <;>
      simp [begun, ofPen, Pen.current, Pen.position, Pen.down]

theorem go_ofPen (points : List (Point α)) :
    (ofPen strokes pen).go points = ofPen strokes (pen.travel points) := by
  cases pen with
  | raised p =>
    -- Nothing is finished by lifting a pen that is up.
    have hnothing : strokes ++ (Pen.raised p).finished = strokes := List.append_nil strokes
    calc (ofPen strokes (.raised p)).go points
      _ = (ofPen strokes (.raised p)).lift points := rfl
      _ = ofPen (strokes ++ (Pen.raised p).finished) ((Pen.raised p).lift.travel points) :=
          lift_ofPen points
      _ = ofPen strokes ((Pen.raised p).travel points) := by rw [hnothing]; rfl
  | lowered p earlier => exact lower_ofPen points

/-- Going from point to point is going along the points. -/
theorem foldl_go_ofPen (points : List (Point α)) :
    points.foldl (fun s p => s.go [p]) (ofPen strokes pen) =
      ofPen strokes (pen.travel points) := by
  induction points generalizing pen with
  | nil => rfl
  | cons p points ih =>
    rw [List.foldl_cons, go_ofPen, ih]
    rfl

variable [Trig α]

/-- An instruction has the same effect on a pen and on its plotter. -/
theorem execute_ofPen (strokes : List (Stroke α)) (pen : Pen α) (i : Instruction α) :
    (ofPen strokes pen).execute i = ofPen (strokes ++ (pen.step i).2) (pen.step i).1 := by
  cases i with
  | reset =>
    cases pen <;> simp [execute, flush, ofPen, Pen.step, Pen.current, Pen.finished, Pen.position,
      Pen.down]
  | penUp points => exact lift_ofPen points
  | penDown points =>
    rw [Pen.step, List.append_nil]
    exact lower_ofPen points
  | moveTo points =>
    rw [Pen.step, List.append_nil]
    exact go_ofPen points
  | moveBy deltas =>
    rw [Pen.step, List.append_nil]
    exact go_ofPen _
  | arc centre sweep =>
    rw [Pen.step, List.append_nil]
    exact foldl_go_ofPen _

/-- The four places fit after every instruction. -/
theorem Coherent.execute (h : s.Coherent) (i : Instruction α) : (s.execute i).Coherent := by
  obtain ⟨pen, hs⟩ := h.exists_eq_ofPen
  rw [hs, execute_ofPen]
  exact coherent_ofPen _ _

theorem coherent_start : (start : Plotter α).Coherent :=
  coherent_ofPen [] Pen.start

/-- So they do after all instructions. -/
theorem Coherent.foldl_execute (h : s.Coherent) (is : List (Instruction α)) :
    (is.foldl Plotter.execute s).Coherent := by
  induction is generalizing s with
  | nil => exact h
  | cons i is ih => exact ih (h.execute i)

/-- A plotter draws the strokes of its pen. -/
theorem output_foldl_ofPen (strokes : List (Stroke α)) (pen : Pen α)
    (is : List (Instruction α)) :
    (is.foldl execute (ofPen strokes pen)).output = strokes ++ pen.run is := by
  induction is generalizing strokes pen with
  | nil => exact output_ofPen strokes pen
  | cons i is ih => rw [List.foldl_cons, execute_ofPen, ih, Pen.run, List.append_assoc]

/-- No instruction loses a stroke or finishes it twice. -/
theorem Coherent.continues (h : s.Coherent) (i : Instruction α) : s.Continues (s.execute i) := by
  cases i with
  | reset => exact ⟨rfl, [], rfl⟩
  | penUp points => exact s.continues_lift points
  | penDown points => exact s.continues_lower points
  | moveTo points => exact s.continues_go points
  | moveBy deltas => exact s.continues_go _
  | arc centre sweep =>
    -- Chord by chord the pen goes where it would go along all of them at once.
    obtain ⟨pen, hs⟩ := h.exists_eq_ofPen
    have hchords : s.execute (.arc centre sweep) = s.go (arcPoints s.position centre sweep) := by
      rw [Plotter.execute, hs, foldl_go_ofPen, go_ofPen]
    rw [hchords]
    exact s.continues_go _

end Plotter

end Flipbook.Plot
