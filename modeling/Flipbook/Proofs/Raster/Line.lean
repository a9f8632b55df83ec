import Mathlib.Algebra.Order.Field.Basic
import Mathlib.Algebra.Order.Field.Rat
import Mathlib.Algebra.Order.Group.Unbundled.Abs
import Mathlib.Data.List.Chain
import Mathlib.Order.Interval.Set.Basic
import Mathlib.Tactic.FieldSimp
import Mathlib.Tactic.Linarith
import Mathlib.Tactic.Positivity
import Mathlib.Tactic.Ring
import Flipbook.Proofs.Raster.Walk

/-!
# Lines of pixels are straight

A line goes on until it is at its end in both coordinates, and nothing else stops it. Along the
longer axis it makes a step every time. The error that it keeps tells how far the steps along the
shorter axis are behind their share of the way, so that they are never more than half a pixel off,
and the line comes to its end along both axes at once.

It is enough to look at lines with as many columns as rows or more: any other line is one of these
with columns and rows exchanged, step by step.

## Main definitions

* `LineVisits`: the pixels that a line between whole numbers visits.
* `linePixels`: these pixels, as a list.
* `sideSteps`: the steps along the shorter axis after some along the longer one.
* `wideState`: the state of a line after some steps.
* `Straight`: what is asked of the pixels of a line.

## Main results

* `step_wideState`: a step of the line leads from each of these states to the next;
* `Visits.transpose`: what a line visits with columns and rows exchanged;
* `lineVisits_linePixels`: the line comes to its end in as many steps as its longer axis has;
* `exists_share_of_mem_linePixels`: every pixel is near a point on the way;
* `linePixels_straight`: the line ends, and its pixels are straight.
-/

namespace Flipbook.Raster

section Loop

variable {x₁ y₁ dx dy sx sy : Int} {s : LineState Int} {pixels : List (Int × Int)}

/-- The pixels from the current one to the end, at most `fuel` of them. -/
def trace (x₁ y₁ dx dy sx sy : Int) : Nat → LineState Int → List (Int × Int)
  | 0, _ => []
  | fuel + 1, s =>
    (s.x, s.y) ::
      if s.x == x₁ && s.y == y₁ then [] else trace x₁ y₁ dx dy sx sy fuel (s.step dx dy sx sy)

/-- With enough fuel a line is traced to its end. -/
theorem Visits.trace_eq (h : Visits x₁ y₁ dx dy sx sy s pixels) {fuel : Nat}
    (hfuel : pixels.length ≤ fuel) : trace x₁ y₁ dx dy sx sy fuel s = pixels := by
  -- Each pixel takes one unit of fuel, and the last one leaves the rest of it.
  induction h generalizing fuel with
  | arrived hend =>
    cases fuel with
    | zero => cases hfuel
    | succ fuel => rw [trace, if_pos hend]
  | step hend _ ih =>
    cases fuel with
    | zero => cases hfuel
    | succ fuel => rw [trace, if_neg hend, ih (Nat.le_of_succ_le_succ hfuel)]

/-- The state of the line with columns and rows exchanged. -/
def LineState.transpose (s : LineState Int) : LineState Int :=
  ⟨s.y, s.x, -s.err⟩

theorem LineState.transpose_step (dx dy sx sy : Int) (s : LineState Int) :
    (s.step dx dy sx sy).transpose = s.transpose.step dy dx sy sx := by
  have hhorizontal : -dx ≤ -s.err + -s.err ↔ s.err + s.err ≤ dx := by omega
  have hvertical : -s.err + -s.err ≤ dy ↔ -dy ≤ s.err + s.err := by omega
  simp only [step, transpose, hhorizontal, hvertical, LineState.mk.injEq, true_and]
  split <;> split <;> omega

/-- With columns and rows exchanged a line visits the same pixels. -/
theorem Visits.transpose (h : Visits x₁ y₁ dx dy sx sy s pixels) :
    Visits y₁ x₁ dy dx sy sx s.transpose (pixels.map Prod.swap) := by
  induction h with
  | arrived hend => exact .arrived ((Bool.and_comm _ _).trans hend)
  | step hend _ ih =>
    rw [LineState.transpose_step] at ih
    exact .step (fun hat => hend ((Bool.and_comm _ _).trans hat)) ih

end Loop

section SideSteps

variable {a b i j : Nat}

/-- The steps along the shorter axis, `b` in all, that a line has taken after `i` of the `a` steps
along the longer one: a share of them, rounded to the nearest number with a half going up. -/
def sideSteps (a b i : Nat) : Nat :=
  (2 * i * b + a) / (2 * a)

theorem sideSteps_zero (a b : Nat) : sideSteps a b 0 = 0 := by
  rw [sideSteps, Nat.mul_zero, Nat.zero_mul, Nat.zero_add]
  rcases Nat.eq_zero_or_pos a with rfl | ha
  · rfl
  · exact Nat.div_eq_of_lt (by omega)

theorem sideSteps_self (h : b ≤ a) : sideSteps a b a = b := by
  rcases Nat.eq_zero_or_pos a with rfl | ha
  · rw [sideSteps_zero]
    omega
  · rw [sideSteps, Nat.mul_add_div (by omega), Nat.div_eq_of_lt (by omega), Nat.add_zero]

/-- The share differs from the number of steps by a half at most. -/
theorem sideSteps_bounds (ha : 0 < a) (b i : Nat) :
    2 * (sideSteps a b i * a) ≤ 2 * (i * b) + a ∧
      2 * (i * b) + a < 2 * (sideSteps a b i * a) + 2 * a := by
  have hle := Nat.div_mul_le_self (2 * i * b + a) (2 * a)
  have hlt := Nat.lt_div_mul_add (a := 2 * i * b + a) (b := 2 * a) (by omega)
  rw [← sideSteps, Nat.mul_left_comm, Nat.mul_assoc 2 i b] at hle hlt
  exact ⟨hle, hlt⟩

/-- The number of steps is the only one that differs from the share by a half at most. -/
theorem eq_sideSteps (ha : 0 < a) {k : Nat} (hle : 2 * (k * a) ≤ 2 * (i * b) + a)
    (hlt : 2 * (i * b) + a < 2 * (k * a) + 2 * a) : sideSteps a b i = k := by
  rw [sideSteps, Nat.div_eq_iff (by omega), Nat.mul_left_comm, Nat.mul_assoc 2 i b]
  omega

theorem sideSteps_mono (a b : Nat) (h : i ≤ j) : sideSteps a b i ≤ sideSteps a b j := by
  apply Nat.div_le_div_right
  gcongr

/-- There is a step along the shorter axis if the share has come half a step beyond the steps
that were taken, and never more than one. -/
theorem sideSteps_succ (ha : 0 < a) (hb : b ≤ a) (i : Nat) :
    sideSteps a b (i + 1) =
      if 2 * (sideSteps a b i * a) + a ≤ 2 * (i * b) + 2 * b then sideSteps a b i + 1
      else sideSteps a b i := by
  obtain ⟨hle, hlt⟩ := sideSteps_bounds ha b i
  have hshare : (i + 1) * b = i * b + b := Nat.succ_mul i b
  have htaken : (sideSteps a b i + 1) * a = sideSteps a b i * a + a := Nat.succ_mul _ a
  split
  · apply eq_sideSteps ha <;> omega
  · apply eq_sideSteps ha <;> omega

/-- As a rational number, too, the share differs from the number of steps by a half at most. -/
theorem abs_sideSteps_sub_le (b : Nat) (h : i ≤ a) :
    |(sideSteps a b i : Rat) - i / a * b| ≤ 1 / 2 := by
  rcases Nat.eq_zero_or_pos a with rfl | ha
  · obtain rfl : i = 0 := Nat.le_zero.mp h
    rw [sideSteps_zero]
    norm_num
  · obtain ⟨hle, hlt⟩ := sideSteps_bounds ha b i
    have hpos : (0 : Rat) < a := Nat.cast_pos.mpr ha
    have hle' : 2 * ((sideSteps a b i : Rat) * a) ≤ 2 * (i * b) + a := by exact_mod_cast hle
    have hlt' : 2 * ((i : Rat) * b) + a < 2 * (sideSteps a b i * a) + 2 * a := by
      exact_mod_cast hlt
    have hshare : (i : Rat) / a * b * a = i * b := by
      field_simp
    rw [abs_le]
    constructor
    · apply le_of_mul_le_mul_right _ hpos
      linarith
    · apply le_of_mul_le_mul_right _ hpos
      linarith

end SideSteps

section Wide

variable {a b i j : Nat} {x₀ y₀ sx sy : Int}

/-- The pixel that a line has come to after `i` steps along the longer axis, that of the columns. -/
def widePixel (x₀ y₀ sx sy : Int) (a b i : Nat) : Int × Int :=
  (x₀ + sx * i, y₀ + sy * sideSteps a b i)

/-- The state after as many steps. Each step lowers the error by the steps that are to be made along
the shorter axis, and each of these raises it by those along the longer one. -/
def wideState (x₀ y₀ sx sy : Int) (a b i : Nat) : LineState Int where
  x := (widePixel x₀ y₀ sx sy a b i).1
  y := (widePixel x₀ y₀ sx sy a b i).2
  err := (a - b : Int) - (i * b : Nat) + (sideSteps a b i * a : Nat)

/-- A step along the longer axis is made every time, and one along the shorter axis if it is due. -/
theorem step_wideState (ha : 0 < a) (hb : b ≤ a) (i : Nat) :
    (wideState x₀ y₀ sx sy a b i).step (a : Int) b sx sy = wideState x₀ y₀ sx sy a b (i + 1) := by
  obtain ⟨hle, hlt⟩ := sideSteps_bounds ha b i
  have hshare : (i + 1) * b = i * b + b := Nat.succ_mul i b
  have htaken : (sideSteps a b i + 1) * a = sideSteps a b i * a + a := Nat.succ_mul _ a
  have hsucc := sideSteps_succ ha hb i
  -- The error stays above the bound from which the longer axis is left alone.
  have hhorizontal : -(b : Int) ≤ (a - b : Int) - (i * b : Nat) + (sideSteps a b i * a : Nat) +
      ((a - b : Int) - (i * b : Nat) + (sideSteps a b i * a : Nat)) := by
    omega
  have hvertical : (a - b : Int) - (i * b : Nat) + (sideSteps a b i * a : Nat) +
      ((a - b : Int) - (i * b : Nat) + (sideSteps a b i * a : Nat)) ≤ a ↔
      2 * (sideSteps a b i * a) + a ≤ 2 * (i * b) + 2 * b := by
    omega
  simp only [LineState.step, wideState, widePixel, hhorizontal, hvertical, hsucc, decide_true,
    if_true, decide_eq_true_eq]
  split
  · rw [htaken, hshare, LineState.mk.injEq]
    push_cast
    refine ⟨?_, ?_, ?_⟩ <;> linarith
  · rw [hshare, LineState.mk.injEq]
    push_cast
    refine ⟨?_, ?_, ?_⟩ <;> linarith

theorem widePixel_zero (x₀ y₀ sx sy : Int) (a b : Nat) :
    widePixel x₀ y₀ sx sy a b 0 = (x₀, y₀) := by
  simp [widePixel, sideSteps_zero]

/-- The coordinates along the longer axis tell the pixels of a line apart. -/
theorem eq_of_widePixel_eq (hsx : sx = 1 ∨ sx = -1)
    (h : (widePixel x₀ y₀ sx sy a b i).1 = (widePixel x₀ y₀ sx sy a b j).1) : i = j := by
  have hsteps : x₀ + sx * i = x₀ + sx * j := h
  rcases hsx with rfl | rfl <;> omega

/-- Steps in one direction lead as far as there are steps. -/
theorem mul_sub_of_direction {s : Int} (hs : s = 1 ∨ s = -1) (start m n : Int) :
    s * ((start + s * n) - (start + s * m)) = n - m := by
  rcases hs with rfl | rfl <;> ring

theorem widePixel_monotone (hsx : sx = 1 ∨ sx = -1) (hsy : sy = 1 ∨ sy = -1) (hij : i ≤ j) :
    0 ≤ sx * ((widePixel x₀ y₀ sx sy a b j).1 - (widePixel x₀ y₀ sx sy a b i).1) ∧
      0 ≤ sy * ((widePixel x₀ y₀ sx sy a b j).2 - (widePixel x₀ y₀ sx sy a b i).2) := by
  have hside := sideSteps_mono a b hij
  simp only [widePixel, mul_sub_of_direction hsx, mul_sub_of_direction hsy]
  omega

/-- Each step leads to a pixel around the last one. -/
theorem widePixel_neighbours (ha : 0 < a) (hb : b ≤ a) (hsx : sx = 1 ∨ sx = -1)
    (hsy : sy = 1 ∨ sy = -1) (i : Nat) :
    widePixel x₀ y₀ sx sy a b i ≠ widePixel x₀ y₀ sx sy a b (i + 1) ∧
      ((widePixel x₀ y₀ sx sy a b (i + 1)).1 - (widePixel x₀ y₀ sx sy a b i).1).natAbs ≤ 1 ∧
      ((widePixel x₀ y₀ sx sy a b (i + 1)).2 - (widePixel x₀ y₀ sx sy a b i).2).natAbs ≤ 1 := by
  have hside : sideSteps a b (i + 1) = sideSteps a b i ∨
      sideSteps a b (i + 1) = sideSteps a b i + 1 := by
    rw [sideSteps_succ ha hb]
    split
    · exact .inr rfl
    · exact .inl rfl
  refine ⟨fun heq => ?_, ?_, ?_⟩
  · exact absurd (eq_of_widePixel_eq hsx (congrArg Prod.fst heq)) (Nat.succ_ne_self i).symm
  · rcases hsx with rfl | rfl <;> simp only [widePixel] <;> omega
  · rcases hsy with rfl | rfl <;> simp only [widePixel] <;> omega

/-- From each of these states on, a line visits the pixels up to the last one. -/
theorem visits_wideState (x₀ y₀ sy : Int) (hb : b ≤ a) (hsx : sx = 1 ∨ sx = -1) {n : Nat}
    (hi : i + n = a) :
    Visits (widePixel x₀ y₀ sx sy a b a).1 (widePixel x₀ y₀ sx sy a b a).2 a b sx sy
      (wideState x₀ y₀ sx sy a b i)
      ((List.range' i (n + 1)).map (widePixel x₀ y₀ sx sy a b)) := by
  -- The induction is on the steps that remain, as the line goes on from any of the states.
  induction n generalizing i with
  | zero =>
    obtain rfl : i = a := hi
    exact .arrived (by simp [wideState])
  | succ n ih =>
    rw [List.range'_succ, List.map_cons]
    apply Visits.step
    · intro hend
      rw [Bool.and_eq_true, beq_iff_eq, beq_iff_eq] at hend
      have := eq_of_widePixel_eq hsx hend.1
      omega
    · rw [step_wideState (by omega) hb]
      exact ih (by omega)

end Wide

section Lines

variable {x₀ y₀ x₁ y₁ : Int} {pixels : List (Int × Int)}

theorem direction_eq (x₀ x₁ : Int) : direction x₀ x₁ = 1 ∨ direction x₀ x₁ = -1 := by
  rw [direction]
  split
  · exact .inl rfl
  · exact .inr rfl

/-- The steps between two coordinates lead from one to the other. -/
theorem add_direction_mul (x₀ x₁ : Int) :
    x₀ + direction x₀ x₁ * (x₁ - x₀).natAbs = x₁ := by
  rw [direction]
  split <;> omega

/-- The pixels that a line visits on the way from one pixel to another. -/
def LineVisits (x₀ y₀ x₁ y₁ : Int) (pixels : List (Int × Int)) : Prop :=
  Visits x₁ y₁ (x₁ - x₀).natAbs (y₁ - y₀).natAbs (direction x₀ x₁) (direction y₀ y₁)
    ⟨x₀, y₀, (x₁ - x₀).natAbs - (y₁ - y₀).natAbs⟩ pixels

/-- The pixels of the line from `(x₀, y₀)` to `(x₁, y₁)`, in drawing order: those that are come upon
in as many steps as its longer axis has. -/
def linePixels (x₀ y₀ x₁ y₁ : Int) : List (Int × Int) :=
  let dx : Int := (x₁ - x₀).natAbs
  let dy : Int := (y₁ - y₀).natAbs
  trace x₁ y₁ dx dy (direction x₀ x₁) (direction y₀ y₁)
    (max (x₁ - x₀).natAbs (y₁ - y₀).natAbs + 1) ⟨x₀, y₀, dx - dy⟩

/-- The pixels of a line whose longer axis is that of the columns. -/
def widePixels (x₀ y₀ x₁ y₁ : Int) : List (Int × Int) :=
  (List.range ((x₁ - x₀).natAbs + 1)).map (widePixel x₀ y₀ (direction x₀ x₁) (direction y₀ y₁)
    (x₁ - x₀).natAbs (y₁ - y₀).natAbs)

theorem widePixel_natAbs (h : (y₁ - y₀).natAbs ≤ (x₁ - x₀).natAbs) :
    widePixel x₀ y₀ (direction x₀ x₁) (direction y₀ y₁) (x₁ - x₀).natAbs (y₁ - y₀).natAbs
      (x₁ - x₀).natAbs = (x₁, y₁) := by
  rw [widePixel, sideSteps_self h, add_direction_mul, add_direction_mul]

theorem lineVisits_widePixels (h : (y₁ - y₀).natAbs ≤ (x₁ - x₀).natAbs) :
    LineVisits x₀ y₀ x₁ y₁ (widePixels x₀ y₀ x₁ y₁) := by
  have hvisits := visits_wideState x₀ y₀ (direction y₀ y₁) h (direction_eq x₀ x₁) (Nat.zero_add _)
  have hstart : wideState x₀ y₀ (direction x₀ x₁) (direction y₀ y₁) (x₁ - x₀).natAbs
      (y₁ - y₀).natAbs 0 = ⟨x₀, y₀, (x₁ - x₀).natAbs - (y₁ - y₀).natAbs⟩ := by
    simp [wideState, widePixel_zero, sideSteps_zero]
  rwa [hstart, widePixel_natAbs h, ← List.range_eq_range'] at hvisits

theorem LineVisits.transpose (h : LineVisits x₀ y₀ x₁ y₁ pixels) :
    LineVisits y₀ x₀ y₁ x₁ (pixels.map Prod.swap) := by
  have hstart : (⟨x₀, y₀, (x₁ - x₀).natAbs - (y₁ - y₀).natAbs⟩ : LineState Int).transpose =
      ⟨y₀, x₀, (y₁ - y₀).natAbs - (x₁ - x₀).natAbs⟩ := by
    rw [LineState.transpose, Int.neg_sub]
  have hvisits := Visits.transpose h
  rwa [hstart] at hvisits

/-- The fuel of a line is enough to visit as many pixels as the longer axis has steps and one. -/
theorem LineVisits.linePixels_eq (h : LineVisits x₀ y₀ x₁ y₁ pixels)
    (hlength : pixels.length ≤ max (x₁ - x₀).natAbs (y₁ - y₀).natAbs + 1) :
    linePixels x₀ y₀ x₁ y₁ = pixels :=
  Visits.trace_eq h hlength

theorem length_widePixels (x₀ y₀ x₁ y₁ : Int) :
    (widePixels x₀ y₀ x₁ y₁).length = (x₁ - x₀).natAbs + 1 := by
  rw [widePixels, List.length_map, List.length_range]

theorem linePixels_of_wide (h : (y₁ - y₀).natAbs ≤ (x₁ - x₀).natAbs) :
    linePixels x₀ y₀ x₁ y₁ = widePixels x₀ y₀ x₁ y₁ := by
  apply (lineVisits_widePixels h).linePixels_eq
  rw [length_widePixels]
  omega

theorem linePixels_of_tall (h : (x₁ - x₀).natAbs ≤ (y₁ - y₀).natAbs) :
    linePixels x₀ y₀ x₁ y₁ = (widePixels y₀ x₀ y₁ x₁).map Prod.swap := by
  apply (lineVisits_widePixels h).transpose.linePixels_eq
  rw [List.length_map, length_widePixels]
  omega

/-- The fuel of a line does not matter: the pixels are those that the line visits. -/
theorem lineVisits_linePixels (x₀ y₀ x₁ y₁ : Int) :
    LineVisits x₀ y₀ x₁ y₁ (linePixels x₀ y₀ x₁ y₁) := by
  rcases le_total (y₁ - y₀).natAbs (x₁ - x₀).natAbs with hwide | htall
  · rw [linePixels_of_wide hwide]
    exact lineVisits_widePixels hwide
  · rw [linePixels_of_tall htall]
    exact (lineVisits_widePixels htall).transpose

theorem direction_mul_natAbs (x₀ x₁ : Int) :
    (direction x₀ x₁ : Rat) * (x₁ - x₀).natAbs = x₁ - x₀ := by
  have hsteps := add_direction_mul x₀ x₁
  generalize (x₁ - x₀).natAbs = n at hsteps ⊢
  rw [eq_sub_iff_add_eq']
  exact_mod_cast hsteps

theorem abs_direction (x₀ x₁ : Int) : |(direction x₀ x₁ : Rat)| = 1 := by
  rcases direction_eq x₀ x₁ with h | h <;> rw [h] <;> norm_num

/-- A pixel of a line has come a share of the way, exactly along the longer axis, and up to half a
pixel along the shorter one. -/
theorem exists_share_of_mem_widePixels {p : Int × Int} (h : p ∈ widePixels x₀ y₀ x₁ y₁) :
    ∃ t ∈ Set.Icc (0 : Rat) 1, (p.1 : Rat) = x₀ + t * (x₁ - x₀) ∧
      |(p.2 : Rat) - (y₀ + t * (y₁ - y₀))| ≤ 1 / 2 := by
  obtain ⟨i, hi, rfl⟩ := List.mem_map.mp h
  have hle : i ≤ (x₁ - x₀).natAbs := Nat.le_of_lt_succ (List.mem_range.mp hi)
  have hle' : (i : Rat) ≤ (x₁ - x₀).natAbs := Nat.cast_le.mpr hle
  refine ⟨i / (x₁ - x₀).natAbs, ⟨by positivity, div_le_one_of_le₀ hle' (by positivity)⟩, ?_, ?_⟩
  · -- A line of one pixel has no steps, but then none has been made either.
    have hshare : (i : Rat) / (x₁ - x₀).natAbs * (x₁ - x₀).natAbs = i := by
      apply div_mul_cancel_of_imp
      intro hnone
      exact le_antisymm (hnone ▸ hle') (Nat.cast_nonneg i)
    rw [← direction_mul_natAbs, mul_left_comm, hshare, widePixel]
    push_cast
    rfl
  · have hoff : ((widePixel x₀ y₀ (direction x₀ x₁) (direction y₀ y₁) (x₁ - x₀).natAbs
        (y₁ - y₀).natAbs i).2 : Rat) - (y₀ + i / (x₁ - x₀).natAbs * (y₁ - y₀)) =
        direction y₀ y₁ * (sideSteps (x₁ - x₀).natAbs (y₁ - y₀).natAbs i -
          i / (x₁ - x₀).natAbs * (y₁ - y₀).natAbs) := by
      rw [← direction_mul_natAbs, widePixel]
      push_cast
      ring
    rw [hoff, abs_mul, abs_direction, one_mul]
    exact abs_sideSteps_sub_le _ hle

/-- A pixel of a line is within half a pixel of the straight line in both coordinates. -/
theorem exists_share_of_mem_linePixels {p : Int × Int} (h : p ∈ linePixels x₀ y₀ x₁ y₁) :
    ∃ t ∈ Set.Icc (0 : Rat) 1, |(p.1 : Rat) - (x₀ + t * (x₁ - x₀))| ≤ 1 / 2 ∧
      |(p.2 : Rat) - (y₀ + t * (y₁ - y₀))| ≤ 1 / 2 := by
  rcases le_total (y₁ - y₀).natAbs (x₁ - x₀).natAbs with hwide | htall
  · rw [linePixels_of_wide hwide] at h
    obtain ⟨t, ht, hcolumn, hrow⟩ := exists_share_of_mem_widePixels h
    refine ⟨t, ht, ?_, hrow⟩
    rw [hcolumn, sub_self, abs_zero]
    norm_num
  · rw [linePixels_of_tall htall] at h
    obtain ⟨q, hq, rfl⟩ := List.mem_map.mp h
    obtain ⟨t, ht, hrow, hcolumn⟩ := exists_share_of_mem_widePixels hq
    refine ⟨t, ht, hcolumn, ?_⟩
    rw [Prod.snd_swap, hrow, sub_self, abs_zero]
    norm_num

theorem length_linePixels (x₀ y₀ x₁ y₁ : Int) :
    (linePixels x₀ y₀ x₁ y₁).length = max (x₁ - x₀).natAbs (y₁ - y₀).natAbs + 1 := by
  rcases le_total (y₁ - y₀).natAbs (x₁ - x₀).natAbs with hwide | htall
  · rw [linePixels_of_wide hwide, length_widePixels, max_eq_left hwide]
  · rw [linePixels_of_tall htall, List.length_map, length_widePixels, max_eq_right htall]

/-- The value at `x` of the straight line through two points, which is that of the first of them if
they are one above the other. -/
def idealAt (x₀ y₀ x₁ y₁ : Int) (x : Int) : Rat :=
  y₀ + (y₁ - y₀) / (x₁ - x₀) * (x - x₀)

theorem idealAt_of_share (hpoint : x₁ = x₀ → y₁ = y₀) {x : Int} {t : Rat}
    (hx : (x : Rat) = x₀ + t * (x₁ - x₀)) : idealAt x₀ y₀ x₁ y₁ x = y₀ + t * (y₁ - y₀) := by
  rw [idealAt, hx, add_sub_cancel_left]
  by_cases hne : x₁ = x₀
  · rw [hne, hpoint hne]
    ring
  · have hlength : (x₁ : Rat) - x₀ ≠ 0 := sub_ne_zero.mpr (Int.cast_injective.ne hne)
    field_simp

/-- What is asked of the pixels of a line from one pixel to another. -/
structure Straight (x₀ y₀ x₁ y₁ : Int) (pixels : List (Int × Int)) : Prop where
  /-- There is one pixel more than steps along the longer axis. -/
  length_eq : pixels.length = max (x₁ - x₀).natAbs (y₁ - y₀).natAbs + 1
  /-- Where the columns are the longer axis, each pixel is in the next column, and in the row
  nearest to the share of the columns. -/
  wide : (y₁ - y₀).natAbs ≤ (x₁ - x₀).natAbs → ∀ i ≤ (x₁ - x₀).natAbs,
    pixels[i]? = some (x₀ + direction x₀ x₁ * i,
      y₀ + direction y₀ y₁ * sideSteps (x₁ - x₀).natAbs (y₁ - y₀).natAbs i)
  /-- Where the rows are, it is the other way round. -/
  tall : (x₁ - x₀).natAbs < (y₁ - y₀).natAbs → ∀ i ≤ (y₁ - y₀).natAbs,
    pixels[i]? = some (x₀ + direction x₀ x₁ * sideSteps (y₁ - y₀).natAbs (x₁ - x₀).natAbs i,
      y₀ + direction y₀ y₁ * i)
  /-- The line begins with its first end. -/
  head_eq : pixels.head? = some (x₀, y₀)
  /-- It ends with the other one. -/
  last_eq : pixels.getLast? = some (x₁, y₁)
  /-- Neither axis is ever gone back. -/
  monotone : pixels.Pairwise fun p q =>
    0 ≤ direction x₀ x₁ * (q.1 - p.1) ∧ 0 ≤ direction y₀ y₁ * (q.2 - p.2)
  /-- Each pixel is beside, above or below the one before, or touches it in a corner. -/
  neighbours : pixels.IsChain fun p q => p ≠ q ∧ (q.1 - p.1).natAbs ≤ 1 ∧ (q.2 - p.2).natAbs ≤ 1
  /-- Along the shorter axis no pixel is more than half a pixel off the straight line. -/
  near_row : (y₁ - y₀).natAbs ≤ (x₁ - x₀).natAbs →
    ∀ p ∈ pixels, |(p.2 : Rat) - idealAt x₀ y₀ x₁ y₁ p.1| ≤ 1 / 2
  near_column : (x₁ - x₀).natAbs < (y₁ - y₀).natAbs →
    ∀ p ∈ pixels, |(p.1 : Rat) - idealAt y₀ x₀ y₁ x₁ p.2| ≤ 1 / 2

/-- With columns and rows exchanged a line with more rows than columns is straight. -/
theorem Straight.transpose (h : Straight y₀ x₀ y₁ x₁ pixels)
    (htall : (x₁ - x₀).natAbs < (y₁ - y₀).natAbs) :
    Straight x₀ y₀ x₁ y₁ (pixels.map Prod.swap) where
  length_eq := by rw [List.length_map, h.length_eq, max_comm]
  wide hwide := absurd hwide htall.not_ge
  tall _ i hi := by
    rw [List.getElem?_map, h.wide htall.le i hi]
    rfl
  head_eq := by
    rw [List.head?_map, h.head_eq]
    rfl
  last_eq := by
    rw [List.getLast?_map, h.last_eq]
    rfl
  monotone := List.pairwise_map.mpr (h.monotone.imp And.symm)
  neighbours := by
    refine (List.isChain_map Prod.swap).mpr (h.neighbours.imp ?_)
    rintro p q ⟨hne, hrows, hcolumns⟩
    exact ⟨fun heq => hne (Prod.swap_injective heq), hcolumns, hrows⟩
  near_row hwide := absurd hwide htall.not_ge
  near_column _ p hp := by
    obtain ⟨q, hq, rfl⟩ := List.mem_map.mp hp
    exact h.near_row htall.le q hq

theorem straight_widePixels (h : (y₁ - y₀).natAbs ≤ (x₁ - x₀).natAbs) :
    Straight x₀ y₀ x₁ y₁ (widePixels x₀ y₀ x₁ y₁) where
  length_eq := by rw [length_widePixels, max_eq_left h]
  wide _ i hi := by
    rw [widePixels, List.getElem?_map, List.getElem?_range (Nat.lt_succ_of_le hi)]
    rfl
  tall htall := absurd h htall.not_ge
  head_eq := by
    rw [widePixels, List.head?_map, List.head?_range, if_neg (Nat.succ_ne_zero _),
      Option.map_some, widePixel_zero]
  last_eq := by
    rw [widePixels, List.getLast?_map, List.getLast?_range, if_neg (Nat.succ_ne_zero _),
      Option.map_some, Nat.add_sub_cancel, widePixel_natAbs h]
  monotone := by
    rw [widePixels, List.pairwise_map]
    exact List.pairwise_lt_range.imp fun hij =>
      widePixel_monotone (direction_eq x₀ x₁) (direction_eq y₀ y₁) (Nat.le_of_lt hij)
  neighbours := by
    rw [widePixels, List.isChain_map, List.isChain_range_succ]
    intro i hi
    exact widePixel_neighbours (Nat.zero_lt_of_lt hi) h (direction_eq x₀ x₁) (direction_eq y₀ y₁) i
  near_row _ p hp := by
    obtain ⟨t, -, hcolumn, hrow⟩ := exists_share_of_mem_widePixels hp
    rwa [idealAt_of_share (by omega) hcolumn]
  near_column htall := absurd h htall.not_ge

/-- A line goes on until it is at its other end, through as many pixels as its longer axis has steps
and one more, and these pixels are straight. A walk along the line visits them. -/
theorem linePixels_straight (x₀ y₀ x₁ y₁ : Int) :
    (∀ pixels, LineVisits x₀ y₀ x₁ y₁ pixels ↔ pixels = linePixels x₀ y₀ x₁ y₁) ∧
      Straight x₀ y₀ x₁ y₁ (linePixels x₀ y₀ x₁ y₁) ∧
      ∀ {σ : Type} (visit : σ → Int → Int → σ) (state : σ),
        LineState.walk visit x₁ y₁ (x₁ - x₀).natAbs (y₁ - y₀).natAbs (direction x₀ x₁)
            (direction y₀ y₁) ⟨x₀, y₀, (x₁ - x₀).natAbs - (y₁ - y₀).natAbs⟩ state =
          some ((linePixels x₀ y₀ x₁ y₁).foldl
            (fun state pixel => visit state pixel.1 pixel.2) state) := by
  refine ⟨?_, ?_, (lineVisits_linePixels x₀ y₀ x₁ y₁).walk_eq⟩
  · intro pixels
    constructor
    · intro h
      exact h.unique (lineVisits_linePixels x₀ y₀ x₁ y₁)
    · rintro rfl
      exact lineVisits_linePixels x₀ y₀ x₁ y₁
  · rcases Nat.lt_or_ge (x₁ - x₀).natAbs (y₁ - y₀).natAbs with htall | hwide
    · rw [linePixels_of_tall htall.le]
      exact (straight_widePixels htall.le).transpose htall
    · rw [linePixels_of_wide hwide]
      exact straight_widePixels hwide

end Lines

end Flipbook.Raster
