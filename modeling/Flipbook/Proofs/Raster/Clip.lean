import Mathlib.Algebra.Order.Field.Basic
import Mathlib.Algebra.Order.Field.Rat
import Mathlib.Order.Bounds.Basic
import Mathlib.Order.Interval.Set.Basic
import Mathlib.Tactic.Linarith
import Flipbook.Raster.Clip

/-!
# What clipping leaves of a segment

In exact arithmetic, clipping leaves of a segment just the part that lies in the area, whatever the
segment is: a point, along a side of the area, or touching the area in a corner only. The ends of
what is left are the first and the last point of the segment in the area.

## Main definitions

* `Covers`: the points of the area, its sides included.
* `visible`: the places on a segment at which it is in the area.
* `Spans`: a range of places that clipping has come to, or none, stands for a set of places.

## Main results

* `Spans.trim`: a side cuts off just the places beyond it;
* `Spans.trimAll`: so all sides together leave the places that none of them cuts off;
* `clip_cases`: clipping decides whether a segment is visible, and between which places it is;
* `clip_exact`: the ends of what is left of a segment.
-/

namespace Flipbook.Raster

variable {area : Extent Rat} {p q : Point Rat} {side : Side Rat} {t : Rat}

/-- A point lies in the area, or on a side of it: half a pixel around the centres of the pixels. -/
def Covers (area : Extent Rat) (p : Point Rat) : Prop :=
  (-(1 / 2) ≤ p.x ∧ p.x ≤ area.width - 1 / 2) ∧ (-(1 / 2) ≤ p.y ∧ p.y ≤ area.height - 1 / 2)

/-- The places on the segment from `p` to `q` at which it is in the area. -/
def visible (area : Extent Rat) (p q : Point Rat) : Set Rat :=
  {t | t ∈ Set.Icc 0 1 ∧ Covers area (pointAt p q t)}

/-! ## The ends of a segment -/

theorem pointAt_zero (p q : Point Rat) : pointAt p q 0 = p := by
  simp [pointAt]

theorem pointAt_one (p q : Point Rat) : pointAt p q 1 = q := by
  simp [pointAt]

theorem zero_mem_visible (h : Covers area p) : 0 ∈ visible area p q := by
  refine ⟨⟨le_rfl, zero_le_one⟩, ?_⟩
  rwa [pointAt_zero]

theorem one_mem_visible (h : Covers area q) : 1 ∈ visible area p q := by
  refine ⟨⟨zero_le_one, le_rfl⟩, ?_⟩
  rwa [pointAt_one]

/-! ## One side -/

/-- A range of places, or none, stands for a set of places. -/
inductive Spans : Option (Rat × Rat) → Set Rat → Prop
  /-- No place is left. -/
  | nothing : Spans none ∅
  /-- The places from one to another are left, one of them at least. -/
  | between {first last : Rat} (h : first ≤ last) : Spans (some (first, last)) (Set.Icc first last)

/-- Two places have a range between them, unless the first one is behind the last one. -/
theorem spans_Icc (first last : Rat) :
    Spans (if last < first then none else some (first, last)) (Set.Icc first last) := by
  split
  next hbehind =>
    rw [Set.Icc_eq_empty_of_lt hbehind]
    exact .nothing
  next hrange => exact .between (not_lt.mp hrange)

theorem spans_inter_Ici {first last : Rat} (h : first ≤ last) (bound : Rat) :
    Spans (if last < bound then none else some (max first bound, last))
      (Set.Icc first last ∩ Set.Ici bound) := by
  have hbehind : last < bound ↔ last < max first bound := by
    rw [lt_max_iff, or_iff_right h.not_gt]
  have hrest : Set.Icc first last ∩ Set.Ici bound = Set.Icc (max first bound) last := by
    rw [← Set.Ici_inter_Iic, Set.inter_right_comm, Set.Ici_inter_Ici, Set.Ici_inter_Iic]
  simp only [hbehind, hrest]
  exact spans_Icc _ _

theorem spans_inter_Iic {first last : Rat} (h : first ≤ last) (bound : Rat) :
    Spans (if bound < first then none else some (first, min last bound))
      (Set.Icc first last ∩ Set.Iic bound) := by
  have hbehind : bound < first ↔ min last bound < first := by
    rw [min_lt_iff, or_iff_right h.not_gt]
  have hrest : Set.Icc first last ∩ Set.Iic bound = Set.Icc first (min last bound) := by
    rw [← Set.Ici_inter_Iic, Set.inter_assoc, Set.Iic_inter_Iic, Set.Ici_inter_Iic]
  simp only [hbehind, hrest]
  exact spans_Icc _ _

/-- The places on a segment that a side does not cut off. -/
def Side.admitted (side : Side Rat) : Set Rat :=
  {t | side.slope * t ≤ side.room}

/-- A side that the segment leaves behind admits the places from where it is passed. -/
theorem admitted_of_neg (h : side.slope < 0) :
    side.admitted = Set.Ici (side.room / side.slope) := by
  ext t
  show side.slope * t ≤ side.room ↔ side.room / side.slope ≤ t
  rw [div_le_iff_of_neg h, mul_comm]

/-- A side that the segment approaches admits the places up to where it is passed. -/
theorem admitted_of_pos (h : 0 < side.slope) :
    side.admitted = Set.Iic (side.room / side.slope) := by
  ext t
  show side.slope * t ≤ side.room ↔ t ≤ side.room / side.slope
  rw [le_div_iff₀ h, mul_comm]

/-- A side along the segment admits all places, or none of them. -/
theorem admitted_of_zero (h : side.slope = 0) :
    side.admitted = if side.room < 0 then ∅ else Set.univ := by
  ext t
  show side.slope * t ≤ side.room ↔ _
  rw [h, zero_mul]
  split
  next hout => simp [hout]
  next hin => simp [not_lt.mp hin]

/-- Trimming with the operations of an ordered field. -/
theorem trim_eq (side : Side Rat) (range : Rat × Rat) :
    side.trim range =
      if side.slope = 0 then if side.room < 0 then none else some range
      else if side.slope < 0 then
        if range.2 < side.room / side.slope then none
        else some (max range.1 (side.room / side.slope), range.2)
      else
        if side.room / side.slope < range.1 then none
        else some (range.1, min range.2 (side.room / side.slope)) := by
  have hzero : (Scalar.ofInt 0 : Rat) = 0 := rfl
  simp only [Side.trim, Scalar.isZero, hzero, beq_iff_eq, max_def, min_def]
  grind

/-- A side cuts off just the places that it does not admit. -/
theorem Spans.trim {result : Option (Rat × Rat)} {places : Set Rat} (h : Spans result places)
    (side : Side Rat) : Spans (result.bind side.trim) (places ∩ side.admitted) := by
  cases h with
  | nothing =>
    rw [Set.empty_inter]
    exact .nothing
  | between hrange =>
    rw [Option.bind_some, trim_eq]
    rcases lt_trichotomy side.slope 0 with hneg | hzero | hpos
    · rw [if_neg hneg.ne, if_pos hneg, admitted_of_neg hneg]
      exact spans_inter_Ici hrange _
    · rw [if_pos hzero, admitted_of_zero hzero]
      split
      · rw [Set.inter_empty]
        exact .nothing
      · rw [Set.inter_univ]
        exact .between hrange
    · rw [if_neg hpos.ne', if_neg hpos.not_gt, admitted_of_pos hpos]
      exact spans_inter_Iic hrange _

/-! ## All sides -/

/-- The part of a range that lies inside all sides, if any of it does. -/
def trimAll (sides : List (Side Rat)) (range : Rat × Rat) : Option (Rat × Rat) :=
  sides.foldlM (fun range side => side.trim range) range

theorem trimAll_nil : trimAll [] = some := rfl

theorem trimAll_cons (sides : List (Side Rat)) :
    trimAll (side :: sides) = fun range => (side.trim range).bind (trimAll sides) := rfl

/-- Sides that trim a range one after the other leave the places which all of them admit. -/
theorem Spans.trimAll {result : Option (Rat × Rat)} {places : Set Rat} (h : Spans result places)
    (sides : List (Side Rat)) :
    Spans (result.bind (trimAll sides)) (places ∩ {t | ∀ side ∈ sides, t ∈ side.admitted}) := by
  -- Each side leaves a smaller set of places to the sides behind it.
  induction sides generalizing result places with
  | nil => simpa [trimAll_nil] using h
  | cons side sides ih =>
    have hplaces : places ∩ {t | ∀ other ∈ side :: sides, t ∈ other.admitted} =
        places ∩ side.admitted ∩ {t | ∀ other ∈ sides, t ∈ other.admitted} := by
      ext t
      simp [and_assoc]
    rw [trimAll_cons, ← Option.bind_assoc, hplaces]
    exact ih (h.trim side)

/-- The sides of the area admit the places at which the segment is in the area. -/
theorem forall_mem_admitted_sides_iff :
    (∀ side ∈ sides area p q, t ∈ side.admitted) ↔ Covers area (pointAt p q t) := by
  have hhalf : (Scalar.half : Rat) = 1 / 2 := rfl
  simp only [sides, List.forall_mem_cons, List.not_mem_nil, false_imp_iff, implies_true, and_true,
    Side.admitted, Set.mem_ofPred_eq, Covers, pointAt, hhalf]
  constructor
  · rintro ⟨hleft, hright, hlower, hupper⟩
    refine ⟨⟨?_, ?_⟩, ?_, ?_⟩ <;> linarith
  · rintro ⟨⟨hleft, hright⟩, hlower, hupper⟩
    refine ⟨?_, ?_, ?_, ?_⟩ <;> linarith

/-- What clipping leaves of the range of places stands for the visible ones. -/
theorem spans_visible (area : Extent Rat) (p q : Point Rat) :
    Spans (trimAll (sides area p q) (0, 1)) (visible area p q) := by
  have hvisible : visible area p q =
      Set.Icc 0 1 ∩ {t | ∀ side ∈ sides area p q, t ∈ side.admitted} := by
    ext t
    simp only [visible, Set.mem_inter_iff, Set.mem_ofPred_eq, forall_mem_admitted_sides_iff]
  rw [hvisible]
  exact (Spans.between zero_le_one).trimAll (sides area p q)

/-- Either the segment is nowhere in the area and nothing is left of it, or it is in the area
between two places and the points there are the ends of what is left. -/
theorem clip_cases (area : Extent Rat) (p q : Point Rat) :
    (clip area p q = none ∧ visible area p q = ∅) ∨
      ∃ first last, first ≤ last ∧ visible area p q = Set.Icc first last ∧
        clip area p q = some (pointAt p q first, pointAt p q last) := by
  have hunfold : clip area p q = (trimAll (sides area p q) (0, 1)).map fun range =>
      (if 0 < range.1 then pointAt p q range.1 else p,
        if range.2 < 1 then pointAt p q range.2 else q) := rfl
  have hspans := spans_visible area p q
  rw [hunfold]
  generalize trimAll (sides area p q) (0, 1) = result,
    hplaces : visible area p q = places at hspans ⊢
  cases hspans with
  | nothing => exact .inl ⟨rfl, rfl⟩
  | @between first last hle =>
    -- The range is a part of the one from zero to one, so an end that is not moved is one of these.
    obtain ⟨⟨hfirst, -⟩, -⟩ : first ∈ visible area p q := hplaces ▸ Set.left_mem_Icc.mpr hle
    obtain ⟨⟨-, hlast⟩, -⟩ : last ∈ visible area p q := hplaces ▸ Set.right_mem_Icc.mpr hle
    have hstart : (if 0 < first then pointAt p q first else p) = pointAt p q first := by
      split
      · rfl
      next hnot => rw [le_antisymm (not_lt.mp hnot) hfirst, pointAt_zero]
    have hend : (if last < 1 then pointAt p q last else q) = pointAt p q last := by
      split
      · rfl
      next hnot => rw [le_antisymm hlast (not_lt.mp hnot), pointAt_one]
    exact .inr ⟨first, last, hle, rfl, by rw [Option.map_some, hstart, hend]⟩

/-- The ends of what is left of a segment are points of it in the area. -/
theorem exists_visible_of_clip {a b : Point Rat} (h : clip area p q = some (a, b)) :
    ∃ first ∈ visible area p q, ∃ last ∈ visible area p q,
      pointAt p q first = a ∧ pointAt p q last = b := by
  rcases clip_cases area p q with ⟨hclip, -⟩ | ⟨first, last, hle, hvisible, hclip⟩
  · cases hclip.symm.trans h
  · refine ⟨first, ?_, last, ?_, ?_⟩
    · rw [hvisible]
      exact Set.left_mem_Icc.mpr hle
    · rw [hvisible]
      exact Set.right_mem_Icc.mpr hle
    · simpa using hclip.symm.trans h

/-- Clipping leaves nothing of a segment just if no point of it is in the area. Otherwise it leaves
the part from the first to the last point of the segment in the area, and an end of the segment that
is in the area stays what it is. -/
theorem clip_exact (area : Extent Rat) (p q : Point Rat) :
    (clip area p q = none ↔ ∀ t ∈ Set.Icc (0 : Rat) 1, ¬ Covers area (pointAt p q t)) ∧
      ∀ a b, clip area p q = some (a, b) →
        (∃ t, IsLeast (visible area p q) t ∧ a = pointAt p q t) ∧
        (∃ t, IsGreatest (visible area p q) t ∧ b = pointAt p q t) ∧
        (Covers area p → a = p) ∧ (Covers area q → b = q) := by
  rcases clip_cases area p q with ⟨hclip, hvisible⟩ | ⟨first, last, hle, hvisible, hclip⟩
  · refine ⟨⟨fun _ t ht hcovers => ?_, fun _ => hclip⟩, fun a b h => ?_⟩
    · exact Set.notMem_empty t (hvisible ▸ ⟨ht, hcovers⟩)
    · cases hclip.symm.trans h
  · have hleast : IsLeast (visible area p q) first := hvisible ▸ isLeast_Icc hle
    have hgreatest : IsGreatest (visible area p q) last := hvisible ▸ isGreatest_Icc hle
    refine ⟨⟨fun h => ?_, fun h => ?_⟩, fun a b h => ?_⟩
    · cases hclip.symm.trans h
    · exact absurd hleast.1.2 (h first hleast.1.1)
    · obtain ⟨rfl, rfl⟩ : pointAt p q first = a ∧ pointAt p q last = b := by
        simpa using hclip.symm.trans h
      refine ⟨⟨first, hleast, rfl⟩, ⟨last, hgreatest, rfl⟩, fun hp => ?_, fun hq => ?_⟩
      · rw [le_antisymm (hleast.2 (zero_mem_visible hp)) hleast.1.1.1, pointAt_zero]
      · rw [le_antisymm hgreatest.1.1.2 (hgreatest.2 (one_mem_visible hq)), pointAt_one]

/-- What touches the area in its lower left corner is left as a point. -/
example : clip (⟨4, 2⟩ : Extent Rat) ⟨-1, 0⟩ ⟨0, -1⟩ =
    some (⟨-1 / 2, -1 / 2⟩, ⟨-1 / 2, -1 / 2⟩) := by
  decide +kernel

end Flipbook.Raster
