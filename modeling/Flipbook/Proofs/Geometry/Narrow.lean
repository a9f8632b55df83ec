import Mathlib.Data.Set.List
import Flipbook.Proofs.Geometry.Fit
import Flipbook.Proofs.Number.Extended

/-!
# Fitting a drawing to a canvas of one column or one row

A canvas of one column or one row has no extent in that direction, and neither need a drawing have
one. Fitting then divides by zero. An infinite quotient, or none, in the comparison that tells which
direction is the constrained one does no harm: it is as if both sides had been multiplied by the
height of the canvas, and the scale that is chosen is a number. One case is left over. If the canvas
has one column, and the drawing is higher than wide but not wide at all, neither direction is found
to be more constrained, and the scale is taken from the widths, both of which are zero. Every divisor
is a difference, so that a zero among them has no negative sign.

## Main definitions

* `Bounds.extend`, `Point.extend`: drawings in numbers that allow for a division by zero.
* `Matrix.undefined`: the map whose scale is no number.
* `Upright`: drawings on a vertical line.

## Main results

* `abs_lt_abs_div_iff`: what is compared, with a canvas of any height;
* `fit_extend_cases`: fitting gives a map with coefficients, but for the case left over;
* `Bounds.ofStrokes_extend`: the bounding box of a drawing;
* `fit_isFinite_iff`: when a drawing keeps its positions.
-/

namespace Flipbook

open ExtendedRat

/-- A point whose coordinates are rational numbers. -/
def Point.extend (p : Point Rat) : Point ExtendedRat :=
  ⟨finite p.x, finite p.y⟩

/-- A box whose sides are rational numbers. -/
def Bounds.extend (box : Bounds Rat) : Bounds ExtendedRat :=
  ⟨finite box.minX, finite box.minY, finite box.maxX, finite box.maxY⟩

/-- A map whose coefficients are rational numbers. -/
def Matrix.extend (m : Matrix Rat) : Matrix ExtendedRat :=
  ⟨finite m.a, finite m.b, finite m.c, finite m.d, finite m.e, finite m.f⟩

/-- The map whose scale is no number. -/
def Matrix.undefined : Matrix ExtendedRat :=
  ⟨nan, finite 0, finite 0, nan, nan, nan⟩

/-- Whether all coefficients are numbers, and not infinite ones. -/
def Matrix.isFinite {α : Type} [Scalar α] (m : Matrix α) : Bool :=
  Scalar.isFinite m.a && Scalar.isFinite m.b && Scalar.isFinite m.c && Scalar.isFinite m.d &&
    Scalar.isFinite m.e && Scalar.isFinite m.f

/-- Whether all sides are numbers, and not infinite ones. -/
def Bounds.isFinite {α : Type} [Scalar α] (box : Bounds α) : Bool :=
  Scalar.isFinite box.minX && Scalar.isFinite box.minY && Scalar.isFinite box.maxX &&
    Scalar.isFinite box.maxY

section Fitting

variable {box : Bounds Rat} {area : Extent ExtendedRat} {spanX spanY : Rat}

/-- What fitting compares: whether the box, made as high as the area, is less wide than it. It is
the same question if the area has no height, although the quotient is no number then. -/
theorem abs_lt_abs_div_iff {dx dy : Rat} (hdx : 0 ≤ dx) (hdy : 0 ≤ dy) (hX : 0 ≤ spanX)
    (hY : 0 ≤ spanY) :
    Scalar.abs (finite dx) < Scalar.abs (finite spanX * finite dy / finite spanY) ↔
      spanY * dx < spanX * dy := by
  rw [abs_finite, abs_of_nonneg hdx, finite_mul]
  rcases hY.eq_or_lt with rfl | hY
  · rw [zero_mul]
    rcases (mul_nonneg hX hdy).eq_or_lt with hzero | hpos
    · rw [← hzero, zero_div_zero]
      exact iff_of_false (not_lt_nan _) (lt_irrefl 0)
    · rw [div_zero_of_pos hpos]
      exact iff_of_true (finite_lt_infinite dx) hpos
  · rw [finite_div _ hY.ne', abs_finite, finite_lt_finite,
      abs_of_nonneg (div_nonneg (mul_nonneg hX hdy) hY.le), lt_div_iff₀ hY, mul_comm dx]

theorem finite_half (a : Rat) : finite a / Scalar.ofInt 2 = finite (a / 2) :=
  finite_div a two_ne_zero

/-- The scale is a number, unless the area has no width and the box is higher than wide but not wide
at all. -/
theorem exists_fit_extend_eq (hareaX : area.spanX = finite spanX)
    (hareaY : area.spanY = finite spanY) (hX : 0 ≤ spanX) (hY : 0 ≤ spanY)
    (hx : box.minX ≤ box.maxX) (hy : box.minY ≤ box.maxY)
    (h : ¬ (spanX = 0 ∧ box.minX = box.maxX ∧ box.minY < box.maxY)) :
    ∃ m : Matrix Rat, box.extend.fit area = m.extend := by
  have hdx : 0 ≤ box.maxX - box.minX := sub_nonneg.mpr hx
  have hdy : 0 ≤ box.maxY - box.minY := sub_nonneg.mpr hy
  simp only [Bounds.fit, Bounds.extend, hareaX, hareaY, finite_sub, Bool.and_eq_true,
    isZero_finite, abs_lt_abs_div_iff hdx hdy hX hY]
  split_ifs with hpoint hhigh
  · -- A box that is a point goes to the middle of the area.
    refine ⟨.displacement (spanX / 2 - box.minX) (spanY / 2 - box.minY), ?_⟩
    rw [finite_half, finite_half, finite_sub, finite_sub]
    rfl
  · -- The height is the constrained dimension. A box without height would not be.
    have hne : box.maxY - box.minY ≠ 0 := by
      intro hflat
      rw [hflat, mul_zero] at hhigh
      exact absurd hhigh (not_lt.mpr (mul_nonneg hY hdx))
    rw [finite_div _ hne]
    -- The shifts are computed without a division by anything but two, whatever the scale is.
    generalize spanY / (box.maxY - box.minY) = scale
    refine ⟨⟨scale, 0, 0, scale,
      (spanX - scale * (box.maxX - box.minX)) / 2 - scale * box.minX, -scale * box.minY⟩, ?_⟩
    simp only [finite_mul, finite_sub, finite_neg, finite_half]
    rfl
  · -- The width is the constrained dimension. A box without width has none either.
    have hne : box.maxX - box.minX ≠ 0 := by
      intro hflat
      have hpos : 0 < box.maxY - box.minY := hdy.lt_of_ne' fun hzero => hpoint ⟨hflat, hzero⟩
      rw [hflat, mul_zero, not_lt] at hhigh
      have hspan : spanX = 0 := le_antisymm (nonpos_of_mul_nonpos_left hhigh hpos) hX
      exact h ⟨hspan, (sub_eq_zero.mp hflat).symm, sub_pos.mp hpos⟩
    rw [finite_div _ hne]
    generalize spanX / (box.maxX - box.minX) = scale
    refine ⟨⟨scale, 0, 0, scale, -scale * box.minX,
      (spanY - scale * (box.maxY - box.minY)) / 2 - scale * box.minY⟩, ?_⟩
    simp only [finite_mul, finite_sub, finite_neg, finite_half]
    rfl

/-- In the case left over the scale is a quotient of nothing by nothing. -/
theorem fit_extend_eq_undefined (hareaX : area.spanX = finite 0)
    (hareaY : area.spanY = finite spanY) (hY : 0 ≤ spanY) (hx : box.minX = box.maxX)
    (hy : box.minY < box.maxY) : box.extend.fit area = .undefined := by
  have hflat : box.maxX - box.minX = 0 := sub_eq_zero.mpr hx.symm
  have hdy : 0 < box.maxY - box.minY := sub_pos.mpr hy
  -- Both sides of the comparison are zero, so that the width is taken for the constrained dimension.
  have hnotHigh : ¬ spanY * (box.maxX - box.minX) < 0 * (box.maxY - box.minY) := by
    rw [hflat, mul_zero, zero_mul]
    exact lt_irrefl 0
  simp only [Bounds.fit, Bounds.extend, hareaX, hareaY, finite_sub, Bool.and_eq_true,
    isZero_finite, abs_lt_abs_div_iff hflat.ge hdy.le le_rfl hY]
  rw [if_neg fun hpoint => hdy.ne' hpoint.2, if_neg hnotHigh, hflat, zero_div_zero]
  rfl

end Fitting

/-! ## Drawings -/

/-- A drawing whose coordinates are rational numbers. -/
def extendStrokes (strokes : List (Stroke Rat)) : List (Stroke ExtendedRat) :=
  strokes.map (List.map Point.extend)

theorem Point.isFinite_iff {p : Point ExtendedRat} :
    p.isFinite = true ↔ p ∈ Set.range Point.extend := by
  obtain ⟨x, y⟩ := p
  rw [Point.isFinite, Bool.and_eq_true, ExtendedRat.isFinite_iff, ExtendedRat.isFinite_iff]
  constructor
  · rintro ⟨⟨x, rfl⟩, y, rfl⟩
    exact ⟨⟨x, y⟩, rfl⟩
  · rintro ⟨q, h⟩
    obtain ⟨rfl, rfl⟩ := Point.mk.inj h
    exact ⟨⟨q.x, rfl⟩, q.y, rfl⟩

theorem Bounds.exists_eq_extend {box : Bounds ExtendedRat} (h : box.isFinite = true) :
    ∃ sides : Bounds Rat, box = sides.extend := by
  obtain ⟨minX, minY, maxX, maxY⟩ := box
  simp only [Bounds.isFinite, Bool.and_eq_true, ExtendedRat.isFinite_iff] at h
  obtain ⟨⟨⟨⟨minX, rfl⟩, minY, rfl⟩, maxX, rfl⟩, maxY, rfl⟩ := h
  exact ⟨⟨minX, minY, maxX, maxY⟩, rfl⟩

/-- Finite points are points with rational coordinates. -/
theorem exists_eq_extendStrokes {strokes : List (Stroke ExtendedRat)}
    (h : ∀ p ∈ strokes.flatten, p.isFinite = true) : ∃ drawn, strokes = extendStrokes drawn := by
  have hrange : strokes ∈ Set.range (List.map (List.map Point.extend)) := by
    rw [Set.range_list_map, Set.range_list_map]
    intro stroke hstroke p hp
    exact Point.isFinite_iff.mp (h p (List.mem_flatten.mpr ⟨stroke, hstroke, hp⟩))
  obtain ⟨drawn, hdrawn⟩ := hrange
  exact ⟨drawn, hdrawn.symm⟩

theorem flatten_extendStrokes (strokes : List (Stroke Rat)) :
    (extendStrokes strokes).flatten = strokes.flatten.map Point.extend := by
  rw [extendStrokes, List.map_flatten]

/-- The extreme values are found by comparing, and rational numbers compare as before. -/
theorem Bounds.extremes_finite (vs : List Rat) :
    extremes (vs.map finite) = (extremes vs).map (Prod.map finite finite) := by
  -- The step of the fold: the sides so far are finite, and so is the value they are compared with.
  have hwiden (seen : Option (Rat × Rat)) (v : Rat) :
      widen (seen.map (Prod.map finite finite)) (finite v) =
        (widen seen v).map (Prod.map finite finite) := by
    cases seen with
    | none =>
      rw [widen_none]
      exact if_pos (finite_le_finite.mpr le_rfl)
    | some seen =>
      simp only [Option.map_some, widen, finite_le_finite, le_refl, if_true, Prod.map,
        finite_lt_finite, apply_ite finite]
  have hfold (seen : Option (Rat × Rat)) :
      (vs.map finite).foldl widen (seen.map (Prod.map finite finite)) =
        (vs.foldl widen seen).map (Prod.map finite finite) := by
    induction vs generalizing seen with
    | nil => rfl
    | cons v vs ih => rw [List.map_cons, List.foldl_cons, hwiden, ih, List.foldl_cons]
  exact hfold none

/-- The bounding box of a drawing is what it is in rational numbers. -/
theorem Bounds.ofStrokes_extend (strokes : List (Stroke Rat)) :
    ofStrokes (extendStrokes strokes) = (ofStrokes strokes).extend := by
  have hcoordinate (f : Point ExtendedRat → ExtendedRat) (g : Point Rat → Rat)
      (hfg : ∀ p, f p.extend = finite (g p)) :
      extremes ((extendStrokes strokes).flatten.map f) =
        (extremes (strokes.flatten.map g)).map (Prod.map finite finite) := by
    rw [flatten_extendStrokes, ← extremes_finite, List.map_map, List.map_map]
    exact congrArg extremes (List.map_congr_left fun p _ => hfg p)
  have hx := hcoordinate Point.x Point.x fun _ => rfl
  have hy := hcoordinate Point.y Point.y fun _ => rfl
  by_cases hempty : strokes.flatten = []
  · -- Without points both boxes are the origin.
    rw [hempty] at hx
    rw [ofStrokes, ofStrokes, hx, hempty]
    rfl
  · obtain ⟨minX, maxX, hminX, -⟩ := exists_extremes (mt List.map_eq_nil_iff.mp hempty :
      strokes.flatten.map Point.x ≠ [])
    obtain ⟨minY, maxY, hminY, -⟩ := exists_extremes (mt List.map_eq_nil_iff.mp hempty :
      strokes.flatten.map Point.y ≠ [])
    rw [ofStrokes, ofStrokes, hx, hy, hminX, hminY]
    rfl

/-! ## Positions -/

/-- The points of a drawing stand above each other, and not all in one place. -/
def Upright {α : Type} (points : List (Point α)) : Prop :=
  (∀ p ∈ points, ∀ q ∈ points, p.x = q.x) ∧ ∃ p ∈ points, ∃ q ∈ points, p.y ≠ q.y

theorem upright_extend_iff (points : List (Point Rat)) :
    Upright (points.map Point.extend) ↔ Upright points := by
  simp [Upright, Point.extend]

/-- The box of an upright drawing has a height, but no width. -/
theorem Bounds.Touches.upright_iff {box : Bounds Rat} {points : List (Point Rat)}
    (h : box.Touches points) :
    Upright points ↔ box.minX = box.maxX ∧ box.minY < box.maxY := by
  obtain ⟨left, hleft, hminX⟩ := h.left.1
  obtain ⟨right, hright, hmaxX⟩ := h.right.1
  obtain ⟨low, hlow, hminY⟩ := h.lower.1
  obtain ⟨high, hhigh, hmaxY⟩ := h.upper.1
  constructor
  · rintro ⟨hline, p, hp, q, hq, hne⟩
    refine ⟨hminX.symm.trans ((hline left hleft right hright).trans hmaxX), ?_⟩
    refine h.minY_le_maxY.lt_of_ne fun hflat => hne ?_
    obtain ⟨hpLow, hpHigh⟩ := h.mem_y hp
    obtain ⟨hqLow, hqHigh⟩ := h.mem_y hq
    -- In a box without height all points have the same ordinate.
    rw [← hflat] at hpHigh hqHigh
    exact (le_antisymm hpHigh hpLow).trans (le_antisymm hqLow hqHigh)
  · rintro ⟨hwidth, hheight⟩
    refine ⟨fun p hp q hq => ?_, low, hlow, high, hhigh, ?_⟩
    · obtain ⟨hpLeft, hpRight⟩ := h.mem_x hp
      obtain ⟨hqLeft, hqRight⟩ := h.mem_x hq
      rw [← hwidth] at hpRight hqRight
      exact (le_antisymm hpRight hpLeft).trans (le_antisymm hqLeft hqRight)
    · rw [hminY, hmaxY]
      exact hheight.ne

section Canvases

variable {canvas : Canvas}

theorem Canvas.spanX_extent (canvas : Canvas) :
    (canvas.extent : Extent ExtendedRat).spanX = finite (canvas.width - 1) :=
  finite_sub _ _

theorem Canvas.spanY_extent (canvas : Canvas) :
    (canvas.extent : Extent ExtendedRat).spanY = finite (canvas.height - 1) :=
  finite_sub _ _

/-- On a canvas, the scale is a number, or the canvas has one column and the box is upright. -/
theorem fit_extend_cases (hwidth : 1 ≤ canvas.width) (hheight : 1 ≤ canvas.height)
    {box : Bounds Rat} (hx : box.minX ≤ box.maxX) (hy : box.minY ≤ box.maxY) :
    (canvas.width = 1 ∧ box.minX = box.maxX ∧ box.minY < box.maxY) ∧
        box.extend.fit canvas.extent = .undefined ∨
      ¬ (canvas.width = 1 ∧ box.minX = box.maxX ∧ box.minY < box.maxY) ∧
        ∃ m : Matrix Rat, box.extend.fit canvas.extent = m.extend := by
  have hX : (0 : Rat) ≤ canvas.width - 1 := sub_nonneg.mpr (Nat.one_le_cast.mpr hwidth)
  have hY : (0 : Rat) ≤ canvas.height - 1 := sub_nonneg.mpr (Nat.one_le_cast.mpr hheight)
  have hcolumn : (canvas.width : Rat) - 1 = 0 ↔ canvas.width = 1 := by
    rw [sub_eq_zero, Nat.cast_eq_one]
  by_cases hleft : canvas.width = 1 ∧ box.minX = box.maxX ∧ box.minY < box.maxY
  · refine .inl ⟨hleft, ?_⟩
    have hspan := canvas.spanX_extent
    rw [hcolumn.mpr hleft.1] at hspan
    exact fit_extend_eq_undefined hspan canvas.spanY_extent hY hleft.2.1 hleft.2.2
  · refine .inr ⟨hleft, ?_⟩
    rw [← hcolumn] at hleft
    exact exists_fit_extend_eq canvas.spanX_extent canvas.spanY_extent hX hY hx hy hleft

end Canvases

theorem isFinite_extend (m : Matrix Rat) : m.extend.isFinite = true :=
  rfl

theorem isFinite_undefined : Matrix.undefined.isFinite = false :=
  rfl

theorem flatten_applyStrokes_extendStrokes (m : Matrix ExtendedRat)
    (strokes : List (Stroke Rat)) :
    (m.applyStrokes (extendStrokes strokes)).flatten =
      strokes.flatten.map fun p => m.apply p.extend := by
  rw [Matrix.flatten_applyStrokes, flatten_extendStrokes, List.map_map]
  rfl

/-- A map with coefficients takes finite points to finite points. -/
theorem isFinite_apply_extend (m : Matrix Rat) (p : Point Rat) :
    (m.extend.apply p.extend).isFinite = true :=
  rfl

/-- A map whose scale is no number leaves no point where it could be shown. -/
theorem isFinite_apply_undefined (p : Point Rat) :
    (Matrix.undefined.apply p.extend).isFinite = false :=
  rfl

/-- On a canvas with one column and one row at least, fitting gives finite coefficients, and a
drawing with finite points keeps positions on the screen, exactly if not both the canvas has one
column only and the drawing is upright. -/
theorem fit_isFinite_iff {canvas : Canvas} (hwidth : 1 ≤ canvas.width)
    (hheight : 1 ≤ canvas.height) :
    (∀ box : Bounds ExtendedRat, box.isFinite = true → box.minX ≤ box.maxX → box.minY ≤ box.maxY →
      ((box.fit canvas.extent).isFinite = true ↔
        ¬ (canvas.width = 1 ∧ box.minX = box.maxX ∧ box.minY < box.maxY))) ∧
    ∀ strokes : List (Stroke ExtendedRat), (∀ p ∈ strokes.flatten, p.isFinite = true) →
      ((∀ p ∈ (((Bounds.ofStrokes strokes).fit canvas.extent).applyStrokes strokes).flatten,
          p.isFinite = true) ↔
        ¬ (canvas.width = 1 ∧ Upright strokes.flatten)) := by
  constructor
  · intro box hbox hx hy
    obtain ⟨sides, rfl⟩ := Bounds.exists_eq_extend hbox
    have hsame : sides.extend.minX = sides.extend.maxX ↔ sides.minX = sides.maxX :=
      ExtendedRat.finite.injEq _ _ ▸ Iff.rfl
    have hless : sides.extend.minY < sides.extend.maxY ↔ sides.minY < sides.maxY := finite_lt_finite
    rw [hsame, hless]
    rcases fit_extend_cases hwidth hheight (finite_le_finite.mp hx) (finite_le_finite.mp hy) with
      ⟨hleft, hfit⟩ | ⟨hleft, m, hfit⟩
    · rw [hfit]
      exact iff_of_false (ne_true_of_eq_false isFinite_undefined) (not_not_intro hleft)
    · rw [hfit]
      exact iff_of_true (isFinite_extend m) hleft
  · intro strokes hstrokes
    obtain ⟨drawn, rfl⟩ := exists_eq_extendStrokes hstrokes
    rw [Bounds.ofStrokes_extend, flatten_extendStrokes, upright_extend_iff,
      flatten_applyStrokes_extendStrokes, List.forall_mem_map]
    by_cases hempty : drawn.flatten = []
    · -- A drawing without points loses none, and is not upright.
      rw [hempty]
      exact iff_of_true nofun (by rintro ⟨-, -, p, hp, -⟩; cases hp)
    have htouches := Bounds.touches_ofStrokes hempty
    rw [htouches.upright_iff]
    rcases fit_extend_cases hwidth hheight htouches.minX_le_maxX htouches.minY_le_maxY with
      ⟨hleft, hfit⟩ | ⟨hleft, m, hfit⟩
    · -- One point is enough to lose a position, and the drawing has one.
      rw [hfit]
      obtain ⟨p, hp⟩ := List.exists_mem_of_ne_nil _ hempty
      refine iff_of_false (fun hall => ?_) (not_not_intro hleft)
      exact ne_true_of_eq_false (isFinite_apply_undefined p) (hall p hp)
    · rw [hfit]
      exact iff_of_true (fun p _ => isFinite_apply_extend m p) hleft

/-- On a canvas of one column, a drawing that is wider than high keeps its positions. -/
theorem fit_isFinite_iff_oneColumn :
    1 ≤ (1 : Nat) ∧ 1 ≤ (11 : Nat) ∧
      ((⟨finite 0, finite 3, finite 5, finite 4⟩ : Bounds ExtendedRat).fit
        (Canvas.extent ⟨1, 11⟩)).isFinite = true ∧
      let strokes : List (Stroke ExtendedRat) :=
        [[⟨finite 0, finite 3⟩, ⟨finite 5, finite 3⟩], [], [⟨finite 2, finite 4⟩]]
      ∀ p ∈ (((Bounds.ofStrokes strokes).fit (Canvas.extent ⟨1, 11⟩)).applyStrokes
        strokes).flatten, p.isFinite = true := by
  obtain ⟨hbox, hstrokes⟩ := fit_isFinite_iff (show 1 ≤ (Canvas.mk 1 11).width by decide)
    (show 1 ≤ (Canvas.mk 1 11).height by decide)
  refine ⟨by decide, by decide, ?_, ?_⟩
  · refine (hbox _ rfl (by decide +kernel) (by decide +kernel)).mpr ?_
    decide +kernel
  · refine (hstrokes _ (by decide +kernel)).mpr ?_
    rintro ⟨-, hline, -⟩
    exact absurd (hline ⟨finite 0, finite 3⟩ (by decide) ⟨finite 5, finite 3⟩ (by decide))
      (by decide)

/-- On a canvas of one column and eleven rows, an upright stroke has no scale, and no position. -/
theorem not_isFinite_fit_upright :
    let strokes : List (Stroke ExtendedRat) := [[⟨finite 3, finite 0⟩, ⟨finite 3, finite 5⟩]]
    let box := Bounds.ofStrokes strokes
    let m := box.fit (Canvas.extent ⟨1, 11⟩)
    (∀ p ∈ strokes.flatten, p.isFinite = true) ∧ box.isFinite = true ∧ box.minX ≤ box.maxX ∧
      box.minY ≤ box.maxY ∧ m = .undefined ∧ m.isFinite = false ∧
      m.applyStrokes strokes = [[⟨nan, nan⟩, ⟨nan, nan⟩]] := by
  decide +kernel

end Flipbook
