import Flipbook.Proofs.Number.Real
import Flipbook.Proofs.Plot.Grouping

/-!
# Arcs

An arc is drawn as a sequence of chords. With real numbers all their ends lie on the circle about
the centre on which the pen is, evenly spaced: every chord turns the pen by the same part of the
whole angle, at most four degrees. The end of the last chord is computed apart, from the whole
angle, and is just where one more of the even steps leads.

## Main definitions

* `chordCount`: the number of chords.
* `arcPoint`: where an arc is after so many of them.

## Main results

* `arcPoints_eq`: the ends of the chords are these points;
* `arcPoint_succ_sub`: a chord turns the pen about the centre;
* `step_arcAbsolute`: what an instruction to draw an arc does to the pen.
-/

namespace Flipbook.Plot

/-- The number of chords of an arc. There is one at least. -/
noncomputable def chordCount (sweep : ℝ) : ℕ :=
  max 1 ⌈|sweep| / 4⌉₊

/-- The point of a circle in a direction, which is an angle in radians. -/
noncomputable def onCircle (centre : Point ℝ) (radius angle : ℝ) : Point ℝ :=
  ⟨centre.x + radius * Real.cos angle, centre.y + radius * Real.sin angle⟩

/-- Where an arc is after so many of its chords. -/
noncomputable def arcPoint (start centre : Point ℝ) (sweep : ℝ) (chords : ℕ) : Point ℝ :=
  let radius := √((start.x - centre.x) ^ 2 + (start.y - centre.y) ^ 2)
  let theta := Complex.arg ⟨start.x - centre.x, start.y - centre.y⟩
  onCircle centre radius (theta + sweep * Real.pi / 180 * chords / chordCount sweep)

/-! ## Circles -/

section Circles

variable (centre : Point ℝ) (radius angle : ℝ)

theorem sq_onCircle_sub :
    ((onCircle centre radius angle).x - centre.x) ^ 2 +
      ((onCircle centre radius angle).y - centre.y) ^ 2 = radius ^ 2 := by
  simp only [onCircle, add_sub_cancel_left]
  rw [mul_pow, mul_pow, ← mul_add, Real.cos_sq_add_sin_sq, mul_one]

/-- To change the direction is to turn the point about the centre. -/
theorem onCircle_add_sub (degrees : ℝ) :
    onCircle centre radius (angle + radians degrees) - centre =
      (onCircle centre radius angle - centre).turn degrees := by
  set turn := radians degrees
  ext
  · change centre.x + radius * Real.cos (angle + turn) - centre.x =
      Real.cos turn * (centre.x + radius * Real.cos angle - centre.x) -
        Real.sin turn * (centre.y + radius * Real.sin angle - centre.y)
    rw [Real.cos_add]
    ring
  · change centre.y + radius * Real.sin (angle + turn) - centre.y =
      Real.sin turn * (centre.x + radius * Real.cos angle - centre.x) +
        Real.cos turn * (centre.y + radius * Real.sin angle - centre.y)
    rw [Real.sin_add]
    ring

end Circles

/-! ## Chords -/

theorem chordCount_pos (sweep : ℝ) : 0 < chordCount sweep :=
  Nat.lt_of_lt_of_le Nat.one_pos (le_max_left _ _)

theorem arcSteps_eq (sweep : ℝ) : arcSteps sweep = chordCount sweep := by
  have habs : Scalar.abs sweep = |sweep| := by
    change (if sweep < ((0 : ℤ) : ℝ) then -sweep else sweep) = |sweep|
    rw [Int.cast_zero]
    split_ifs with h
    · exact (abs_of_neg h).symm
    · exact (abs_of_nonneg (not_lt.mp h)).symm
  calc arcSteps sweep = (max 1 ⌈Scalar.abs sweep / ((4 : ℤ) : ℝ)⌉).toNat := rfl
    _ = (max 1 ⌈|sweep| / 4⌉).toNat := by rw [habs, Int.cast_ofNat]
    _ = max 1 ⌈|sweep| / 4⌉.toNat := by omega
    _ = chordCount sweep := rfl

/-- No chord takes more than four degrees. -/
theorem abs_div_chordCount_le (sweep : ℝ) : |sweep| / chordCount sweep ≤ 4 := by
  have hpos : (0 : ℝ) < chordCount sweep := Nat.cast_pos.mpr (chordCount_pos sweep)
  have hceil : |sweep| / 4 ≤ chordCount sweep :=
    (Nat.le_ceil _).trans (Nat.cast_le.mpr (le_max_right _ _))
  rw [div_le_iff₀ hpos]
  linarith

section Chords

variable (start centre : Point ℝ) (sweep : ℝ)

/-- An arc starts where the pen is, since a point is given by its distance and its angle. -/
theorem arcPoint_zero : arcPoint start centre sweep 0 = start := by
  let z : ℂ := ⟨start.x - centre.x, start.y - centre.y⟩
  have hradius : √((start.x - centre.x) ^ 2 + (start.y - centre.y) ^ 2) = ‖z‖ :=
    (Complex.norm_eq_sqrt_sq_add_sq z).symm
  have hx : ‖z‖ * Real.cos z.arg = start.x - centre.x := Complex.norm_mul_cos_arg z
  have hy : ‖z‖ * Real.sin z.arg = start.y - centre.y := Complex.norm_mul_sin_arg z
  simp only [arcPoint, hradius, Nat.cast_zero, mul_zero, zero_div, add_zero]
  ext
  · exact (congrArg (centre.x + ·) hx).trans (add_sub_cancel _ _)
  · exact (congrArg (centre.y + ·) hy).trans (add_sub_cancel _ _)

/-- The ends of all chords are as far from the centre as the pen is. -/
theorem sq_arcPoint_sub (chords : ℕ) :
    ((arcPoint start centre sweep chords).x - centre.x) ^ 2 +
        ((arcPoint start centre sweep chords).y - centre.y) ^ 2 =
      (start.x - centre.x) ^ 2 + (start.y - centre.y) ^ 2 :=
  (sq_onCircle_sub _ _ _).trans (Real.sq_sqrt (by positivity))

/-- A chord turns the pen about the centre, by its part of the whole angle. -/
theorem arcPoint_succ_sub (chords : ℕ) :
    arcPoint start centre sweep (chords + 1) - centre =
      (arcPoint start centre sweep chords - centre).turn (sweep / chordCount sweep) := by
  have hturn : radians (sweep / chordCount sweep) =
      sweep / chordCount sweep * Real.pi / ((180 : ℤ) : ℝ) := rfl
  rw [arcPoint, arcPoint, ← onCircle_add_sub, hturn]
  congr 2
  push_cast
  ring

/-- The ends of the chords, in drawing order. -/
theorem arcPoints_eq :
    arcPoints start centre sweep =
      (List.range (chordCount sweep)).map fun i => arcPoint start centre sweep (i + 1) := by
  set dx := start.x - centre.x with hdx
  set dy := start.y - centre.y with hdy
  have hmodel : arcPoints start centre sweep =
      (List.range (arcSteps sweep - 1)).map (fun i => onCircle centre √(dx * dx + dy * dy)
        (Complex.arg ⟨dx, dy⟩ + sweep * Real.pi / ((180 : ℤ) : ℝ) * (((i + 1 : ℕ) : ℤ) : ℝ) /
          ((arcSteps sweep : ℤ) : ℝ))) ++
      [onCircle centre √(dx * dx + dy * dy)
        (Complex.arg ⟨dx, dy⟩ + sweep * Real.pi / ((180 : ℤ) : ℝ))] := rfl
  obtain ⟨n, hn⟩ := Nat.exists_eq_succ_of_ne_zero (chordCount_pos sweep).ne'
  rw [hmodel, arcSteps_eq, hn, Nat.succ_eq_add_one, Nat.add_sub_cancel, List.range_succ,
    List.map_append, List.map_singleton]
  simp only [arcPoint, hn, ← hdx, ← hdy, sq, Int.cast_ofNat, Int.cast_natCast]
  -- After as many chords as there are, the even steps have taken the whole angle.
  rw [Nat.succ_eq_add_one, mul_div_assoc _ ((n + 1 : ℕ) : ℝ), div_self (by positivity), mul_one]

end Chords

/-! ## The pen on its way -/

namespace Pen

variable {α : Type}

theorem position_travel_concat (pen : Pen α) (points : List (Point α)) (q : Point α) :
    (pen.travel (points ++ [q])).position = q := by
  rw [travel_append]
  exact position_moveTo _ q

/-- A pen that is down adds its way to the stroke that it is drawing. -/
theorem current_travel (pen : Pen α) (points : List (Point α)) :
    (pen.travel points).current = if pen.down then pen.current ++ points else [] := by
  cases pen with
  | raised p => rw [travel_raised]; rfl
  | lowered p earlier =>
    rcases List.eq_nil_or_concat points with rfl | ⟨before, q, rfl⟩
    · exact (List.append_nil _).symm
    · rw [List.concat_eq_append, travel_lowered_concat]
      simp [current, down]

end Pen

/-- An instruction to draw an arc takes the pen along evenly spaced points of the circle about the
centre, one for each chord, and lowers or lifts it nowhere. If the pen is down, these points are
added to the stroke that it is drawing; if it is up, there is still no stroke. No chord takes more
than four degrees. -/
theorem step_arcAbsolute (pen : Pen ℝ) (cx cy sweep : ℝ) (more : List ℝ) :
    ∃ arc, Instruction.make? .arcAbsolute (cx :: cy :: sweep :: more) = some arc ∧
      let point := arcPoint pen.position ⟨cx, cy⟩ sweep
      let ends := (List.range (chordCount sweep)).map fun i => point (i + 1)
      let next := (pen.step arc).1
      (pen.step arc).2 = [] ∧ next.down = pen.down ∧
      next.current = (if pen.down then pen.current ++ ends else []) ∧
      next.position = point (chordCount sweep) ∧
      point 0 = pen.position ∧
      (∀ i, ((point i).x - cx) ^ 2 + ((point i).y - cy) ^ 2 =
        (pen.position.x - cx) ^ 2 + (pen.position.y - cy) ^ 2) ∧
      (∀ i, point (i + 1) - ⟨cx, cy⟩ =
        (point i - ⟨cx, cy⟩).turn (sweep / chordCount sweep)) ∧
      |sweep| / chordCount sweep ≤ 4 := by
  refine ⟨.arc ⟨cx, cy⟩ sweep, rfl, rfl, ?_, ?_, ?_, arcPoint_zero _ _ _,
    sq_arcPoint_sub _ _ _, arcPoint_succ_sub _ _ _, abs_div_chordCount_le sweep⟩
  · exact pen.down_travel _
  · rw [Pen.step, Pen.current_travel, arcPoints_eq]
  · obtain ⟨n, hn⟩ := Nat.exists_eq_succ_of_ne_zero (chordCount_pos sweep).ne'
    rw [Pen.step, arcPoints_eq, hn, List.range_succ, List.map_append, List.map_singleton]
    exact pen.position_travel_concat _ _

end Flipbook.Plot
