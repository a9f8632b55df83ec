import Flipbook.Proofs.Archive.Characters
import Flipbook.Proofs.Plot.Plotter

/-!
# Plots one behind the other

An instruction to reset lifts the pen and takes it back to the origin, which is where every plot
begins. Behind it nothing is left of what stands in front: the strokes of two plots with a reset
between them are those of the first plot and then those of the second one. In between, lowering the
pen begins a stroke where it is, and all points that it is led to belong to this stroke until it is
lifted.

## Main definitions

* `Instruction.way`, `way`: the points that the pen is led to.

## Main results

* `instructions_append`: at a semicolon a plot falls into two;
* `Pen.run_append_reset`: a reset forgets the pen;
* `Pen.run_penDown`: the stroke that a lowered pen draws;
* `strokes_append_reset`: a plot behind a reset is drawn as if it stood alone.
-/

namespace Flipbook.Plot

variable {α : Type}

/-- A finished stroke has a point: the one where the pen was lifted. -/
theorem Pen.nil_notMem_finished (pen : Pen α) : [] ∉ pen.finished := by
  cases pen <;> simp [finished]

variable [Trig α]

/-- At a semicolon a plot falls into two. -/
theorem instructions_append (as bs : List Char) :
    (instructions (as ++ ';' :: bs) : List (Instruction α)) =
      instructions as ++ instructions bs := by
  rw [instructions, piecesBy_append rfl, List.filterMap_append]
  rfl

theorem instructions_reset : (instructions ['I', 'N'] : List (Instruction α)) = [.reset] :=
  rfl

namespace Pen

/-- A reset finishes the stroke being drawn and forgets the pen. -/
theorem run_append_reset (pen : Pen α) (before after : List (Instruction α)) :
    pen.run (before ++ .reset :: after) = pen.run before ++ start.run after := by
  induction before generalizing pen with
  | nil => rfl
  | cons i before ih => rw [List.cons_append, run, run, ih, List.append_assoc]

theorem nil_notMem_run (pen : Pen α) (is : List (Instruction α)) : [] ∉ pen.run is := by
  induction is generalizing pen with
  | nil => exact pen.nil_notMem_finished
  | cons i is ih =>
    rw [run, List.mem_append, not_or]
    refine ⟨?_, ih _⟩
    cases i with
    | reset => exact pen.nil_notMem_finished
    | penUp points => exact pen.nil_notMem_finished
    | penDown points => exact List.not_mem_nil
    | moveTo points => exact List.not_mem_nil
    | moveBy deltas => exact List.not_mem_nil
    | arc centre sweep => exact List.not_mem_nil

end Pen

/-- Whether an instruction lifts the pen. -/
def Instruction.lifts : Instruction α → Bool
  | .reset | .penUp _ => true
  | _ => false

/-- The points that an instruction leads the pen to, one after the other. -/
def Instruction.way (position : Point α) : Instruction α → List (Point α)
  | .reset => [⟨Scalar.ofInt 0, Scalar.ofInt 0⟩]
  | .penUp points | .penDown points | .moveTo points => points
  | .moveBy deltas => runningSums position deltas
  | .arc centre sweep => arcPoints position centre sweep

/-- The points that instructions lead the pen to. Each of them goes on where the one before ends. -/
def way (position : Point α) : List (Instruction α) → List (Point α)
  | [] => []
  | i :: is => i.way position ++ way ((i.way position).getLastD position) is

/-- Two ways end where the second one does, or the first one if that leads nowhere. -/
theorem getLastD_append {β : Type} (xs ys : List β) (x : β) :
    (xs ++ ys).getLastD x = ys.getLastD (xs.getLastD x) := by
  induction xs generalizing x with
  | nil => rfl
  | cons y xs ih => rw [List.cons_append, List.getLastD_cons, List.getLastD_cons, ih]

namespace Pen

variable {p : Point α} {earlier : List (Point α)} {is : List (Instruction α)}

omit [Trig α] in
/-- A lowered pen stays on the paper, and the stroke grows by the points that it goes along. -/
theorem exists_travel_lowered (p : Point α) (earlier points : List (Point α)) :
    ∃ before, (lowered p earlier).travel points = lowered (points.getLastD p) before ∧
      (lowered (points.getLastD p) before).current = (lowered p earlier).current ++ points := by
  rcases List.eq_nil_or_concat points with rfl | ⟨points, q, rfl⟩
  · exact ⟨earlier, rfl, (List.append_nil _).symm⟩
  · rw [List.concat_eq_append, List.getLastD_concat, travel_lowered_concat]
    exact ⟨_, rfl, by simp [current]⟩

theorem step_lowered {i : Instruction α} (h : i.lifts = false) :
    (lowered p earlier).step i = ((lowered p earlier).travel (i.way p), []) := by
  cases i with
  | reset | penUp => cases h
  | penDown | moveTo | moveBy | arc => rfl

/-- As long as it is not lifted, a lowered pen draws one stroke. -/
theorem exists_run_lowered (p : Point α) (earlier : List (Point α))
    (h : ∀ i ∈ is, i.lifts = false) (rest : List (Instruction α)) :
    ∃ before, (lowered p earlier).run (is ++ rest) =
        (lowered ((way p is).getLastD p) before).run rest ∧
      (lowered ((way p is).getLastD p) before).current =
        (lowered p earlier).current ++ way p is := by
  induction is generalizing p earlier with
  | nil => exact ⟨earlier, rfl, (List.append_nil _).symm⟩
  | cons i is ih =>
    rw [List.forall_mem_cons] at h
    obtain ⟨middle, htravel, hmiddle⟩ := exists_travel_lowered p earlier (i.way p)
    obtain ⟨before, hrun, hcurrent⟩ := ih ((i.way p).getLastD p) middle h.2
    -- The way as a whole ends where the way of the later instructions does.
    have hlast : (way p (i :: is)).getLastD p =
        (way ((i.way p).getLastD p) is).getLastD ((i.way p).getLastD p) :=
      getLastD_append _ _ p
    refine ⟨before, ?_, ?_⟩
    · rw [List.cons_append, run, step_lowered h.1, htravel, hlast, List.nil_append]
      exact hrun
    · rw [hlast, hcurrent, hmiddle, List.append_assoc]
      rfl

/-- Lowering the pen begins a stroke where it is. All points that it is led to belong to the stroke,
up to the next instruction that lifts it, or the end. -/
theorem run_penDown (p : Point α) (points : List (Point α)) (h : ∀ i ∈ is, i.lifts = false) :
    (raised p).run (.penDown points :: is) = [p :: way p (.penDown points :: is)] ∧
      ∀ (lift : Instruction α) (rest : List (Instruction α)), lift.lifts = true →
        (raised p).run (.penDown points :: is ++ lift :: rest) =
          (p :: way p (.penDown points :: is)) ::
            (raised ((way p (.penDown points :: is)).getLastD p)).run (lift :: rest) := by
  have hdown : ∀ i ∈ .penDown points :: is, i.lifts = false :=
    List.forall_mem_cons.mpr ⟨rfl, h⟩
  -- The stroke begins with the point at which the pen is lowered.
  have hstroke (rest : List (Instruction α)) : ∃ before,
      (raised p).run (.penDown points :: is ++ rest) =
          (lowered ((way p (.penDown points :: is)).getLastD p) before).run rest ∧
        (lowered ((way p (.penDown points :: is)).getLastD p) before).finished =
          [p :: way p (.penDown points :: is)] := by
    obtain ⟨before, hrun, hcurrent⟩ := exists_run_lowered p [] hdown rest
    exact ⟨before, hrun, congrArg (fun stroke => [stroke]) hcurrent⟩
  constructor
  · obtain ⟨before, hrun, hfinished⟩ := hstroke []
    rw [List.append_nil] at hrun
    exact hrun.trans hfinished
  · intro lift rest hlift
    obtain ⟨before, hrun, hfinished⟩ := hstroke (lift :: rest)
    rw [hrun]
    cases lift with
    | reset | penUp => rw [run, step, hfinished]; rfl
    | penDown | moveTo | moveBy | arc => cases hlift

end Pen

/-- The plotter after some instructions. -/
def Plotter.after (is : List (Instruction α)) : Plotter α :=
  is.foldl execute start

/-- A plot behind a reset is drawn as if it stood alone. Whatever the instructions are, the stroke
being drawn has points exactly if the pen is down, and ends at the pen; none is lost or finished
twice, and no stroke of a plot is empty. -/
theorem strokes_append_reset :
    (∀ a b : String, (strokes (a ++ ";IN;" ++ b) : List (Stroke α)) = strokes a ++ strokes b) ∧
    (∀ (is : List (Instruction α)) (i : Instruction α),
      (Plotter.after is).Coherent ∧ (Plotter.after is).Continues ((Plotter.after is).execute i)) ∧
    ∀ text : String,
      (strokes text : List (Stroke α)) = (Plotter.after (instructions text.toList)).output ∧
        [] ∉ (strokes text : List (Stroke α)) := by
  refine ⟨fun a b => ?_, fun is i => ?_, fun text => ⟨?_, Pen.start.nil_notMem_run _⟩⟩
  · -- The text in the middle is an instruction of its own.
    have htext : (a ++ ";IN;" ++ b).toList = a.toList ++ ';' :: (['I', 'N'] ++ ';' :: b.toList) := by
      simp
    rw [strokes, htext, instructions_append, instructions_append, instructions_reset]
    exact Pen.start.run_append_reset _ _
  · have hcoherent := Plotter.coherent_start.foldl_execute is
    exact ⟨hcoherent, hcoherent.continues i⟩
  · exact (Plotter.output_foldl_ofPen [] Pen.start _).symm

end Flipbook.Plot
