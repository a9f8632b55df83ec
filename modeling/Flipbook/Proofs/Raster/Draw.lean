import Flipbook.Proofs.Raster.Clip
import Flipbook.Proofs.Raster.Image
import Flipbook.Proofs.Raster.Line
import Flipbook.Raster.Draw

/-!
# Drawing a segment on an image

Of a segment the visible part is drawn, as a line between the pixels that its ends round to. So the
size of the image bounds the number of pixels, however long the segment is. Rounding the ends moves
the line by half a pixel at most, and so does rounding on the way, so that a pixel is never farther
from the segment than one.

An end on the right or the upper side of the area rounds to a pixel beyond the image. Such pixels
are visited, but they colour nothing.

## Main definitions

* `Near`: a pixel is no farther than one from a point.
* `SegmentDrawn`: what becomes of an image when a segment is drawn on it.

## Main results

* `length_linePixels_round_le`: the size of the image bounds the pixels of a line;
* `drawClipped_eq`: the line between two points comes to its end;
* `exists_near_of_mem_linePixels`: the pixels of a line are near the segment between its ends;
* `drawLine_bounded`: every segment can be drawn, at bounded cost, and accurately.
-/

namespace Flipbook.Raster

variable {canvas : Canvas} {a b p q : Point Rat} {t : Rat}

/-! ## Rounding -/

theorem round_eq (v : Rat) : Scalar.round v = (v + 1 / 2).floor := rfl

theorem abs_round_sub_le (v : Rat) : |(Scalar.round v : Rat) - v| ≤ 1 / 2 := by
  have hle := Rat.floor_le (v + 1 / 2)
  have hlt := Rat.lt_floor (x := v + 1 / 2)
  rw [round_eq, abs_le]
  constructor <;> linarith

/-- Between the sides of the area, coordinates are rounded to a number of pixels up to the size,
which itself is one too many. -/
theorem round_bounds (size : Nat) {v : Rat} (hlow : -(1 / 2) ≤ v) (hhigh : v ≤ size - 1 / 2) :
    0 ≤ Scalar.round v ∧ Scalar.round v ≤ size := by
  rw [round_eq]
  constructor
  · rw [Rat.le_floor_iff]
    push_cast
    linarith
  · rw [← Int.lt_add_one_iff, Rat.floor_lt_iff]
    push_cast
    linarith

/-- A line between the pixels that two points of the area round to has no more pixels than the
longer side of the image, and one. -/
theorem length_linePixels_round_le (ha : Covers canvas.extent a) (hb : Covers canvas.extent b) :
    (linePixels (Scalar.round a.x) (Scalar.round a.y) (Scalar.round b.x)
      (Scalar.round b.y)).length ≤ max canvas.width canvas.height + 1 := by
  obtain ⟨⟨haleft, haright⟩, halower, haupper⟩ := ha
  obtain ⟨⟨hbleft, hbright⟩, hblower, hbupper⟩ := hb
  have hax := round_bounds canvas.width haleft haright
  have hay := round_bounds canvas.height halower haupper
  have hbx := round_bounds canvas.width hbleft hbright
  have hby := round_bounds canvas.height hblower hbupper
  rw [length_linePixels]
  omega

/-! ## Lines in exact arithmetic -/

theorem round_intCast (n : Int) : Scalar.round (n : Rat) = n := by
  rw [round_eq]
  apply le_antisymm
  · rw [← Int.lt_add_one_iff, Rat.floor_lt_iff]
    push_cast
    linarith
  · rw [Rat.le_floor_iff]
    linarith

theorem plotAt_intCast (image : Image) (colour : Colour) (x y : Int) :
    image.plotAt colour (x : Rat) (y : Rat) = image.plot colour x y := by
  have hplot : image.plotAt colour (x : Rat) (y : Rat) =
      image.plot colour (Scalar.round (x : Rat)) (Scalar.round (y : Rat)) := rfl
  rw [hplot, round_intCast, round_intCast]

theorem abs_intCast_sub (m n : Int) : Scalar.abs ((m : Rat) - n) = ((m - n).natAbs : Int) := by
  rw [Int.natCast_natAbs, Int.cast_abs, Int.cast_sub, Scalar.abs]
  have hzero : (Scalar.ofInt 0 : Rat) = 0 := rfl
  rw [hzero]
  split
  next h => exact (abs_of_neg h).symm
  next h => exact (abs_of_nonneg (not_lt.mp h)).symm

theorem direction_intCast (m n : Int) : direction (m : Rat) n = direction m n := by
  have hless : (m : Rat) < n ↔ m < n := Int.cast_lt
  simp only [direction, hless]

/-- In exact arithmetic the line between two points comes to its end, at the pixels between those
that the points round to. -/
theorem drawClipped_eq (image : Image) (colour : Colour) (a b : Point Rat) :
    image.drawClipped colour a b = some (image.plotAll colour (linePixels
      (Scalar.round a.x) (Scalar.round a.y) (Scalar.round b.x) (Scalar.round b.y))) := by
  have hrounded (v : Rat) : Scalar.rounded v = (Scalar.round v : Rat) := rfl
  have hof (n : Int) : (Scalar.ofInt n : Rat) = n := rfl
  rw [Image.drawClipped, walkBetween]
  simp only [hrounded, hof, abs_intCast_sub, direction_intCast]
  generalize Scalar.round a.x = x₀, Scalar.round a.y = y₀, Scalar.round b.x = x₁,
    Scalar.round b.y = y₁
  -- Whole numbers are added and compared like rational numbers.
  have hvisits := (lineVisits_linePixels x₀ y₀ x₁ y₁).map (f := fun n : Int => (n : Rat))
    Int.cast_add Int.cast_neg (fun _ _ => Int.cast_le) fun m n => by
      rw [Bool.eq_iff_iff, beq_iff_eq, beq_iff_eq, Int.cast_inj]
  have hwalk := hvisits.walk_eq (fun image x y => image.plotAt colour x y) image
  rw [List.foldl_map] at hwalk
  simp only [LineState.map, Int.cast_sub, Prod.map_fst, Prod.map_snd, plotAt_intCast] at hwalk
  exact hwalk

/-! ## Accuracy -/

/-- Part of the way between two points is part of the way of the segment that they lie on. -/
theorem pointAt_pointAt (p q : Point Rat) (first last t : Rat) :
    pointAt (pointAt p q first) (pointAt p q last) t =
      pointAt p q (first + t * (last - first)) := by
  rw [pointAt, pointAt, pointAt, pointAt, Point.mk.injEq]
  constructor <;> ring

theorem share_mem_Icc {first last : Rat} (hfirst : first ∈ Set.Icc (0 : Rat) 1)
    (hlast : last ∈ Set.Icc (0 : Rat) 1) (ht : t ∈ Set.Icc (0 : Rat) 1) :
    first + t * (last - first) ∈ Set.Icc (0 : Rat) 1 := by
  obtain ⟨⟨hfirst, hfirst'⟩, ⟨hlast, hlast'⟩, ⟨ht, ht'⟩⟩ := hfirst, hlast, ht
  have hrest : 0 ≤ 1 - t := sub_nonneg.mpr ht'
  have hmix : first + t * (last - first) = (1 - t) * first + t * last := by ring
  rw [hmix]
  constructor
  · positivity
  · calc (1 - t) * first + t * last ≤ (1 - t) * 1 + t * 1 := by gcongr
      _ = 1 := by ring

/-- On the way between two rounded coordinates one is never farther from the way between the
coordinates themselves than half a pixel. -/
theorem abs_round_share_sub_le (u v : Rat) (ht : t ∈ Set.Icc (0 : Rat) 1) :
    |(Scalar.round u : Rat) + t * (Scalar.round v - Scalar.round u) - (u + t * (v - u))| ≤
      1 / 2 := by
  obtain ⟨hzero, hone⟩ := ht
  have hrest : 0 ≤ 1 - t := sub_nonneg.mpr hone
  calc |(Scalar.round u : Rat) + t * (Scalar.round v - Scalar.round u) - (u + t * (v - u))|
      = |(1 - t) * (Scalar.round u - u) + t * (Scalar.round v - v)| := by
        congr 1
        ring
    _ ≤ (1 - t) * |(Scalar.round u : Rat) - u| + t * |(Scalar.round v : Rat) - v| := by
        refine (abs_add_le _ _).trans_eq ?_
        rw [abs_mul, abs_mul, abs_of_nonneg hrest, abs_of_nonneg hzero]
    _ ≤ (1 - t) * (1 / 2) + t * (1 / 2) := by
        gcongr
        · exact abs_round_sub_le u
        · exact abs_round_sub_le v
    _ = 1 / 2 := by ring

/-- A pixel lies within the distance of one from a point, in each of the axes. -/
def Near (pixel : Int × Int) (p : Point Rat) : Prop :=
  |(pixel.1 : Rat) - p.x| ≤ 1 ∧ |(pixel.2 : Rat) - p.y| ≤ 1

/-- Rounding the ends of a segment and rounding on the way cost half a pixel each. -/
theorem exists_near_of_mem_linePixels {pixel : Int × Int}
    (h : pixel ∈ linePixels (Scalar.round a.x) (Scalar.round a.y) (Scalar.round b.x)
      (Scalar.round b.y)) :
    ∃ t ∈ Set.Icc (0 : Rat) 1, Near pixel (pointAt a b t) := by
  obtain ⟨t, ht, hcolumn, hrow⟩ := exists_share_of_mem_linePixels h
  have hx := abs_round_share_sub_le a.x b.x ht
  have hy := abs_round_share_sub_le a.y b.y ht
  refine ⟨t, ht, ?_, ?_⟩
  · have := (abs_sub_le _ _ _).trans (add_le_add hcolumn hx)
    exact this.trans_eq (by norm_num)
  · have := (abs_sub_le _ _ _).trans (add_le_add hrow hy)
    exact this.trans_eq (by norm_num)

/-! ## Effect on an image -/

/-- What becomes of an image when a segment is drawn on it, by the pixels that the line visits. -/
structure SegmentDrawn (image : Image) (colour : Colour) (p q : Point Rat)
    (visited : List (Int × Int)) (drawn : Image) : Prop where
  /-- The line goes from one end of the visible part to the other. -/
  visits : ∀ a b, clip image.canvas.extent p q = some (a, b) →
    LineVisits (Scalar.round a.x) (Scalar.round a.y) (Scalar.round b.x) (Scalar.round b.y) visited
  /-- However long the segment is, the size of the image bounds the line. -/
  length_le : visited.length ≤ max image.canvas.width image.canvas.height + 1
  /-- If the segment is nowhere in the area, no pixel is visited, and the image stays as it is. -/
  missed : (∀ t ∈ Set.Icc (0 : Rat) 1, ¬ Covers image.canvas.extent (pointAt p q t)) →
    visited = [] ∧ drawn = image
  /-- Every pixel that is visited is near the segment. -/
  near : ∀ pixel ∈ visited, ∃ t ∈ Set.Icc (0 : Rat) 1, Near pixel (pointAt p q t)
  /-- Those of them that are on the image are coloured. -/
  coloured : ∀ pixel ∈ visited, Image.onImage image.canvas pixel.1 pixel.2 →
    drawn.read? pixel.1 pixel.2 = some colour
  /-- The bytes of all other pixels stay as they are. -/
  kept : ∀ j, (∀ pixel ∈ visited, Image.onImage image.canvas pixel.1 pixel.2 →
    Image.byteOwner image.canvas j ≠ pixel) → drawn.toBytes[j]? = image.toBytes[j]?
  /-- The size of the image does not change. -/
  canvas_eq : drawn.canvas = image.canvas
  /-- Nor does the number of its bytes. -/
  length_eq : drawn.toBytes.length = image.canvas.width * image.canvas.height * 3

theorem segmentDrawn_of_clip_eq_none {image : Image} (h : clip image.canvas.extent p q = none)
    (colour : Colour) : SegmentDrawn image colour p q [] image where
  visits a b hclip := by cases h.symm.trans hclip
  length_le := Nat.zero_le _
  missed _ := ⟨rfl, rfl⟩
  near := nofun
  coloured := nofun
  kept _ _ := rfl
  canvas_eq := rfl
  length_eq := image.length_toBytes

theorem segmentDrawn_of_clip_eq_some {image : Image}
    (h : clip image.canvas.extent p q = some (a, b)) (colour : Colour) :
    SegmentDrawn image colour p q
      (linePixels (Scalar.round a.x) (Scalar.round a.y) (Scalar.round b.x) (Scalar.round b.y))
      (image.plotAll colour (linePixels
        (Scalar.round a.x) (Scalar.round a.y) (Scalar.round b.x) (Scalar.round b.y))) := by
  obtain ⟨first, ⟨hfirst, hcoversFirst⟩, last, ⟨hlast, hcoversLast⟩, rfl, rfl⟩ :=
    exists_visible_of_clip h
  exact {
    visits := by
      intro a b hclip
      obtain ⟨rfl, rfl⟩ : pointAt p q first = a ∧ pointAt p q last = b := by
        simpa using h.symm.trans hclip
      exact lineVisits_linePixels _ _ _ _
    length_le := length_linePixels_round_le hcoversFirst hcoversLast
    missed := fun hmissed => absurd hcoversFirst (hmissed first hfirst)
    near := by
      intro pixel hpixel
      obtain ⟨t, ht, hnear⟩ := exists_near_of_mem_linePixels hpixel
      -- A point between the ends of the visible part is a point of the whole segment.
      rw [pointAt_pointAt] at hnear
      exact ⟨_, share_mem_Icc hfirst hlast ht, hnear⟩
    coloured := by
      intro pixel hpixel hon
      rw [Image.read?_plotAll hon, if_pos hpixel]
    kept := fun j hj => Image.getElem?_toBytes_plotAll hj colour
    canvas_eq := image.plotAll_canvas colour _
    length_eq := by rw [Image.length_toBytes, Image.plotAll_canvas] }

/-- A segment can always be drawn, at a cost bounded by the size of the image. It colours pixels of
the image within the distance of one from the segment, and nothing else. -/
theorem drawLine_bounded (image : Image) (colour : Colour) (p q : Point Rat) :
    ∃ visited drawn, image.drawLine colour p q = .ok drawn ∧
      SegmentDrawn image colour p q visited drawn := by
  have hfinite : ∀ p : Point Rat, p.isFinite = true := fun _ => rfl
  rw [Image.drawLine, hfinite, hfinite]
  simp only [Bool.not_true, Bool.false_eq_true, if_false]
  cases hclip : clip image.canvas.extent p q with
  | none => exact ⟨[], image, rfl, segmentDrawn_of_clip_eq_none hclip colour⟩
  | some ends =>
    dsimp only
    rw [drawClipped_eq]
    exact ⟨_, _, rfl, segmentDrawn_of_clip_eq_some hclip colour⟩

end Flipbook.Raster
