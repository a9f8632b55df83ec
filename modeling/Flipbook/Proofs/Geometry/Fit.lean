import Mathlib.Algebra.Order.Field.Rat
import Mathlib.Tactic.Linarith
import Mathlib.Tactic.Positivity
import Mathlib.Tactic.Ring
import Flipbook.Geometry.Placement
import Flipbook.Proofs.Geometry.Bounds

/-!
# Fitting a drawing to the canvas

Whichever dimension of a drawing is the more constrained one, the map that fits it is a centred
enlargement: it puts the middle of the bounding box on the middle of the canvas. The scale is the
greatest that leaves no side of the box off the canvas.

## Main definitions

* `Matrix.enlargement`, `Bounds.centring`: enlargements, and the one that centres a box.
* `Bounds.FilledBy`: a scale at which a box fills an area.
* `Fits`: what fitting a drawing to an area amounts to.

## Main results

* `Bounds.exists_fit_eq`: fitting is a centred enlargement by a scale that fills the area;
* `Bounds.ofStrokes_enlargement`: the bounding box is enlarged with the drawing;
* `fits_fit`: a fitted drawing stays on the canvas, is centred, and fills it.
-/

namespace Flipbook

/-- The map that stretches both axes alike, and then displaces every point. -/
def Matrix.enlargement (scale dx dy : Rat) : Matrix Rat :=
  ⟨scale, 0, 0, scale, dx, dy⟩

/-- The image of a box, by its lower left and its upper right corner. -/
def Matrix.applyBounds (m : Matrix Rat) (box : Bounds Rat) : Bounds Rat :=
  let low := m.apply ⟨box.minX, box.minY⟩
  let high := m.apply ⟨box.maxX, box.maxY⟩
  ⟨low.x, low.y, high.x, high.y⟩

/-- The point in the middle of a box. -/
def Bounds.centre (box : Bounds Rat) : Point Rat :=
  ⟨(box.minX + box.maxX) / 2, (box.minY + box.maxY) / 2⟩

section Enlargement

variable {scale dx dy : Rat} {box : Bounds Rat} {points : List (Point Rat)}

theorem Matrix.apply_enlargement (scale dx dy : Rat) (p : Point Rat) :
    (enlargement scale dx dy).apply p = ⟨scale * p.x + dx, scale * p.y + dy⟩ := by
  simp [enlargement, apply]

theorem Matrix.flatten_applyStrokes {α : Type} [Scalar α] (m : Matrix α)
    (strokes : List (Stroke α)) :
    (m.applyStrokes strokes).flatten = strokes.flatten.map m.apply := by
  rw [applyStrokes, List.map_flatten]

/-- Stretching by a positive scale keeps the order of coordinates. -/
theorem monotone_stretch (h : 0 < scale) (shift : Rat) :
    Monotone fun v : Rat => scale * v + shift :=
  fun _ _ hle => add_le_add_left (mul_le_mul_of_nonneg_left hle h.le) shift

/-- The extreme coordinates of a drawing are stretched with it. -/
theorem Bounds.Touches.enlargement (h : box.Touches points) (hscale : 0 < scale) (dx dy : Rat) :
    ((Matrix.enlargement scale dx dy).applyBounds box).Touches
      (points.map (Matrix.enlargement scale dx dy).apply) := by
  have hset : pointSet (points.map (Matrix.enlargement scale dx dy).apply) =
      (Matrix.enlargement scale dx dy).apply '' pointSet points := Set.ext fun _ => List.mem_map
  have hx : Point.x '' pointSet (points.map (Matrix.enlargement scale dx dy).apply) =
      (fun v => scale * v + dx) '' (Point.x '' pointSet points) := by
    rw [hset, Set.image_image, Set.image_image]
    simp only [Matrix.apply_enlargement]
  have hy : Point.y '' pointSet (points.map (Matrix.enlargement scale dx dy).apply) =
      (fun v => scale * v + dy) '' (Point.y '' pointSet points) := by
    rw [hset, Set.image_image, Set.image_image]
    simp only [Matrix.apply_enlargement]
  constructor
  · rw [hx, Matrix.applyBounds, Matrix.apply_enlargement]
    exact (monotone_stretch hscale dx).map_isLeast h.left
  · rw [hy, Matrix.applyBounds, Matrix.apply_enlargement]
    exact (monotone_stretch hscale dy).map_isLeast h.lower
  · rw [hx, Matrix.applyBounds, Matrix.apply_enlargement, Matrix.apply_enlargement]
    exact (monotone_stretch hscale dx).map_isGreatest h.right
  · rw [hy, Matrix.applyBounds, Matrix.apply_enlargement, Matrix.apply_enlargement]
    exact (monotone_stretch hscale dy).map_isGreatest h.upper

theorem Matrix.flatten_applyStrokes_ne_nil (m : Matrix Rat) {strokes : List (Stroke Rat)}
    (h : strokes.flatten ≠ []) : (m.applyStrokes strokes).flatten ≠ [] := by
  rw [flatten_applyStrokes]
  exact mt List.map_eq_nil_iff.mp h

/-- The bounding box is enlarged with the drawing. -/
theorem Bounds.ofStrokes_enlargement {strokes : List (Stroke Rat)} (h : strokes.flatten ≠ [])
    (hscale : 0 < scale) (dx dy : Rat) :
    ofStrokes ((Matrix.enlargement scale dx dy).applyStrokes strokes) =
      (Matrix.enlargement scale dx dy).applyBounds (ofStrokes strokes) := by
  have himage := touches_ofStrokes (Matrix.flatten_applyStrokes_ne_nil
    (Matrix.enlargement scale dx dy) h)
  rw [Matrix.flatten_applyStrokes] at himage
  exact himage.unique ((touches_ofStrokes h).enlargement hscale dx dy)

end Enlargement

section Fitting

variable {box : Bounds Rat} {area : Extent Rat} {scale : Rat}

/-- The enlargement that puts the middle of a box on the middle of an area. -/
def Bounds.centring (box : Bounds Rat) (area : Extent Rat) (scale : Rat) : Matrix Rat :=
  Matrix.enlargement scale ((area.spanX - scale * (box.minX + box.maxX)) / 2)
    ((area.spanY - scale * (box.minY + box.maxY)) / 2)

/-- At a scale, a box is not too large for an area and, unless it is a point, as wide or as high. -/
structure Bounds.FilledBy (area : Extent Rat) (box : Bounds Rat) (scale : Rat) : Prop where
  pos : 0 < scale
  width : scale * (box.maxX - box.minX) ≤ area.spanX
  height : scale * (box.maxY - box.minY) ≤ area.spanY
  full : (box.maxX = box.minX ∧ box.maxY = box.minY) ∨
    scale * (box.maxX - box.minX) = area.spanX ∨ scale * (box.maxY - box.minY) = area.spanY

/-- What fitting compares: whether the box, made as high as the area, is less wide than it. -/
theorem abs_lt_abs_iff {dx dy spanX spanY : Rat} (hdx : 0 ≤ dx) (hdy : 0 ≤ dy) (hX : 0 < spanX)
    (hY : 0 < spanY) :
    Scalar.abs dx < Scalar.abs (spanX * dy / spanY) ↔ spanY * dx < spanX * dy := by
  have habs : ∀ v : Rat, 0 ≤ v → Scalar.abs v = v := fun v hv => if_neg (not_lt.mpr hv)
  rw [habs dx hdx, habs _ (by positivity), lt_div_iff₀ hY, mul_comm dx]

/-- Fitting is a centred enlargement by a scale at which the box fills the area. -/
theorem Bounds.exists_fit_eq (hx : box.minX ≤ box.maxX) (hy : box.minY ≤ box.maxY)
    (hspanX : 0 < area.spanX) (hspanY : 0 < area.spanY) :
    ∃ scale, box.FilledBy area scale ∧ box.fit area = box.centring area scale := by
  have hdx : 0 ≤ box.maxX - box.minX := sub_nonneg.mpr hx
  have hdy : 0 ≤ box.maxY - box.minY := sub_nonneg.mpr hy
  have hzero : (Scalar.ofInt 0 : Rat) = 0 := rfl
  have htwo : (Scalar.ofInt 2 : Rat) = 2 := rfl
  simp only [fit, Scalar.isZero, Bool.and_eq_true, beq_iff_eq, hzero, htwo,
    abs_lt_abs_iff hdx hdy hspanX hspanY]
  split_ifs with hpoint hhigh
  · -- The box is a point, which is put on the middle as it is.
    obtain ⟨hwidth, hheight⟩ := hpoint
    refine ⟨1, ⟨one_pos, by linarith, by linarith, .inl ⟨by linarith, by linarith⟩⟩, ?_⟩
    have hdisplacement : ∀ ex ey : Rat, Matrix.displacement ex ey = Matrix.enlargement 1 ex ey :=
      fun _ _ => rfl
    rw [hdisplacement, centring]
    congr 1 <;> linarith
  · -- The height is the constrained dimension. A box without height would not be.
    have hpos : 0 < box.maxY - box.minY := by
      refine hdy.lt_of_ne' fun hflat => ?_
      rw [hflat, mul_zero] at hhigh
      exact absurd hhigh (not_lt.mpr (mul_nonneg hspanY.le hdx))
    have hfull : area.spanY / (box.maxY - box.minY) * (box.maxY - box.minY) = area.spanY :=
      div_mul_cancel₀ _ hpos.ne'
    refine ⟨area.spanY / (box.maxY - box.minY),
      ⟨by positivity, ?_, hfull.le, .inr (.inr hfull)⟩, ?_⟩
    · rw [div_mul_eq_mul_div, div_le_iff₀ hpos]
      exact hhigh.le
    · generalize area.spanY / (box.maxY - box.minY) = scale at hfull ⊢
      rw [centring, Matrix.enlargement]
      congr 1 <;> linarith
  · -- The width is the constrained dimension. A box without width would be a point.
    rw [not_lt] at hhigh
    have hpos : 0 < box.maxX - box.minX := by
      refine hdx.lt_of_ne' fun hflat => hpoint ⟨hflat, ?_⟩
      rw [hflat, mul_zero] at hhigh
      exact le_antisymm (nonpos_of_mul_nonpos_right hhigh hspanX) hdy
    have hfull : area.spanX / (box.maxX - box.minX) * (box.maxX - box.minX) = area.spanX :=
      div_mul_cancel₀ _ hpos.ne'
    refine ⟨area.spanX / (box.maxX - box.minX),
      ⟨by positivity, hfull.le, ?_, .inr (.inl hfull)⟩, ?_⟩
    · rw [div_mul_eq_mul_div, div_le_iff₀ hpos]
      exact hhigh
    · generalize area.spanX / (box.maxX - box.minX) = scale at hfull ⊢
      rw [centring, Matrix.enlargement]
      congr 1 <;> linarith

/-- The sides of a box that was centred are equally far from those of the area. -/
theorem Bounds.applyBounds_centring (box : Bounds Rat) (area : Extent Rat) (scale : Rat) :
    (box.centring area scale).applyBounds box =
      ⟨(area.spanX - scale * (box.maxX - box.minX)) / 2,
        (area.spanY - scale * (box.maxY - box.minY)) / 2,
        (area.spanX + scale * (box.maxX - box.minX)) / 2,
        (area.spanY + scale * (box.maxY - box.minY)) / 2⟩ := by
  rw [Matrix.applyBounds, centring, Matrix.apply_enlargement, Matrix.apply_enlargement]
  dsimp only
  congr 1 <;> ring

/-- What fitting a drawing to an area amounts to. -/
structure Fits (area : Extent Rat) (strokes : List (Stroke Rat)) (m : Matrix Rat) : Prop where
  /-- Both axes are stretched alike, and neither is turned around. -/
  uniform : 0 < m.a ∧ m.d = m.a ∧ m.b = 0 ∧ m.c = 0
  /-- No point leaves the area. -/
  inside : ∀ p ∈ (m.applyStrokes strokes).flatten, area.holds p = true
  /-- The box of what is drawn is the image of the box of the drawing. -/
  box : Bounds.ofStrokes (m.applyStrokes strokes) = m.applyBounds (Bounds.ofStrokes strokes)
  /-- Its middle is that of the area. -/
  centred : (Bounds.ofStrokes (m.applyStrokes strokes)).centre = area.centre
  /-- It spans the whole width or the whole height, unless all points coincide. -/
  full : (∃ p ∈ strokes.flatten, ∃ q ∈ strokes.flatten, p ≠ q) →
    let box := Bounds.ofStrokes (m.applyStrokes strokes)
    (box.minX = 0 ∧ box.maxX = area.spanX) ∨ (box.minY = 0 ∧ box.maxY = area.spanY)

/-- The enlargement that centres the box of a drawing fits the drawing, if the box fills the
area. -/
theorem fits_centring {strokes : List (Stroke Rat)} (h : strokes.flatten ≠ [])
    (hscale : (Bounds.ofStrokes strokes).FilledBy area scale) :
    Fits area strokes ((Bounds.ofStrokes strokes).centring area scale) := by
  have htouches := Bounds.touches_ofStrokes h
  have himage := Bounds.touches_ofStrokes (Matrix.flatten_applyStrokes_ne_nil
    ((Bounds.ofStrokes strokes).centring area scale) h)
  have hbox : Bounds.ofStrokes (((Bounds.ofStrokes strokes).centring area scale).applyStrokes
      strokes) = _ := Bounds.ofStrokes_enlargement h hscale.pos _ _
  have hsides := hbox.trans (Bounds.applyBounds_centring _ area scale)
  rw [hsides] at himage
  obtain ⟨hpos, hwidth, hheight, hfull⟩ := hscale
  refine ⟨⟨hpos, rfl, rfl, rfl⟩, ?_, hbox, ?_, ?_⟩
  · intro p hp
    obtain ⟨hleft, hright⟩ := himage.mem_x hp
    obtain ⟨hlower, hupper⟩ := himage.mem_y hp
    have hzero : (Scalar.ofInt 0 : Rat) = 0 := rfl
    simp only [Extent.holds, Bool.and_eq_true, decide_eq_true_eq, hzero]
    refine ⟨⟨⟨?_, ?_⟩, ?_⟩, ?_⟩ <;> linarith
  · have htwo : (Scalar.ofInt 2 : Rat) = 2 := rfl
    rw [hsides, Bounds.centre, Extent.centre, htwo]
    dsimp only
    congr 1 <;> ring
  · rintro ⟨p, hp, q, hq, hne⟩
    rw [hsides]
    dsimp only
    -- The box is a point, or its image spans one of the two axes.
    rcases hfull with hpoint | hfull | hfull
    · exact absurd (htouches.eq_of_mem hpoint.1 hpoint.2 hp hq) hne
    · exact .inl ⟨by linarith, by linarith⟩
    · exact .inr ⟨by linarith, by linarith⟩

end Fitting

/-- On a canvas with two columns and two rows at least, the map that fits a drawing keeps it on the
canvas, centres it, and fills the canvas with it. -/
theorem fits_fit {canvas : Canvas} {strokes : List (Stroke Rat)} (hwidth : 2 ≤ canvas.width)
    (hheight : 2 ≤ canvas.height) (h : strokes.flatten ≠ []) :
    Fits canvas.extent strokes ((Bounds.ofStrokes strokes).fit canvas.extent) := by
  have hspan : ∀ n : Nat, 2 ≤ n → (0 : Rat) < Scalar.ofNat n - Scalar.ofInt 1 := by
    intro n hn
    have htwo : (2 : Rat) ≤ n := Nat.ofNat_le_cast.mpr hn
    have hnat : (Scalar.ofNat n : Rat) = n := rfl
    have hone : (Scalar.ofInt 1 : Rat) = 1 := rfl
    rw [hnat, hone]
    linarith
  have hspanX : 0 < (canvas.extent : Extent Rat).spanX := hspan _ hwidth
  have hspanY : 0 < (canvas.extent : Extent Rat).spanY := hspan _ hheight
  have htouches := Bounds.touches_ofStrokes h
  obtain ⟨scale, hscale, hfit⟩ :=
    Bounds.exists_fit_eq htouches.minX_le_maxX htouches.minY_le_maxY hspanX hspanY
  rw [hfit]
  exact fits_centring h hscale

/-- A mast that is too high for the canvas, with its foot aside, and a dot. -/
def mastDrawing : List (Stroke Rat) :=
  [[⟨-3, 7⟩, ⟨-3 / 2, 900⟩], [], [⟨12, 7⟩]]

theorem fits_fit_mastDrawing :
    2 ≤ (1024 : Nat) ∧ 2 ≤ (780 : Nat) ∧ mastDrawing.flatten ≠ [] ∧
      Fits (Canvas.extent ⟨1024, 780⟩) mastDrawing
        ((Bounds.ofStrokes mastDrawing).fit (Canvas.extent ⟨1024, 780⟩)) :=
  ⟨by decide, by decide, by decide,
    fits_fit (by decide) (by decide) (by decide)⟩

end Flipbook
