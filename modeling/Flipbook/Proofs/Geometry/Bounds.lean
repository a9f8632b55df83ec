import Mathlib.Algebra.Order.Ring.Rat
import Mathlib.Data.List.Induction
import Mathlib.Order.Bounds.Image
import Flipbook.Geometry.Bounds

/-!
# The bounding box of a drawing

In exact arithmetic every value compares with itself, so the box of a drawing is the least one that
holds all its points: each side touches the drawing.

## Main definitions

* `Bounds.Touches`: the box whose sides are the extreme coordinates of some points.

## Main results

* `exists_extremes`: the extreme values of a list are its least and its greatest one;
* `touches_ofStrokes`: the bounding box of a drawing touches it on every side.
-/

namespace Flipbook

/-- The points of a list, as a set. -/
def pointSet (points : List (Point Rat)) : Set (Point Rat) :=
  {p | p ∈ points}

namespace Bounds

variable {box other : Bounds Rat} {points : List (Point Rat)} {p : Point Rat}

/-- The values seen so far are widened to the least and the greatest one. -/
theorem widen_some (low high v : Rat) :
    widen (some (low, high)) v = some (min v low, max v high) := by
  rw [widen, if_pos (le_refl v), min_def, max_def]
  grind

theorem widen_none (v : Rat) : widen none v = some (v, v) :=
  if_pos (le_refl v)

theorem extremes_concat (vs : List Rat) (v : Rat) :
    extremes (vs ++ [v]) = widen (extremes vs) v := by
  rw [extremes, List.foldl_append]
  rfl

/-- One value more joins the others. -/
theorem setOf_mem_concat (vs : List Rat) (v : Rat) :
    {x | x ∈ vs ++ [v]} = insert v {x | x ∈ vs} := by
  ext x
  simp [or_comm]

/-- The extreme values are the least and the greatest one. -/
theorem exists_extremes {vs : List Rat} (h : vs ≠ []) :
    ∃ low high, extremes vs = some (low, high) ∧
      IsLeast {x | x ∈ vs} low ∧ IsGreatest {x | x ∈ vs} high := by
  induction vs using List.reverseRecOn with
  | nil => exact absurd rfl h
  | append_singleton vs v ih =>
    rw [extremes_concat, setOf_mem_concat]
    by_cases hfirst : vs = []
    · subst hfirst
      refine ⟨v, v, widen_none v, ?_⟩
      simp
    · obtain ⟨low, high, hextremes, hlow, hhigh⟩ := ih hfirst
      rw [hextremes, widen_some]
      exact ⟨_, _, rfl, hlow.insert v, hhigh.insert v⟩

/-- The sides of a box are the extreme coordinates of some points. -/
structure Touches (box : Bounds Rat) (points : List (Point Rat)) : Prop where
  left : IsLeast (Point.x '' pointSet points) box.minX
  lower : IsLeast (Point.y '' pointSet points) box.minY
  right : IsGreatest (Point.x '' pointSet points) box.maxX
  upper : IsGreatest (Point.y '' pointSet points) box.maxY

/-- The bounding box of a drawing touches it on every side. -/
theorem touches_ofStrokes {strokes : List (Stroke Rat)} (h : strokes.flatten ≠ []) :
    (ofStrokes strokes).Touches strokes.flatten := by
  have hset : ∀ coordinate : Point Rat → Rat, {x | x ∈ strokes.flatten.map coordinate} =
      coordinate '' pointSet strokes.flatten := fun coordinate => Set.ext fun _ => List.mem_map
  obtain ⟨left, right, hx, hleft, hright⟩ :=
    exists_extremes (mt List.map_eq_nil_iff.mp h : strokes.flatten.map Point.x ≠ [])
  obtain ⟨lower, upper, hy, hlower, hupper⟩ :=
    exists_extremes (mt List.map_eq_nil_iff.mp h : strokes.flatten.map Point.y ≠ [])
  have hbox : ofStrokes strokes = ⟨left, lower, right, upper⟩ := by
    rw [ofStrokes, hx, hy]
    rfl
  rw [hbox]
  rw [hset] at hleft hright hlower hupper
  exact ⟨hleft, hlower, hright, hupper⟩

namespace Touches

/-- There is one such box only. -/
theorem unique (h : box.Touches points) (h' : other.Touches points) : box = other :=
  Bounds.ext (h.left.unique h'.left) (h.lower.unique h'.lower) (h.right.unique h'.right)
    (h.upper.unique h'.upper)

/-- Every point lies between the left and the right side. -/
theorem mem_x (h : box.Touches points) (hp : p ∈ points) : box.minX ≤ p.x ∧ p.x ≤ box.maxX :=
  ⟨h.left.2 ⟨p, hp, rfl⟩, h.right.2 ⟨p, hp, rfl⟩⟩

/-- Every point lies between the lower and the upper side. -/
theorem mem_y (h : box.Touches points) (hp : p ∈ points) : box.minY ≤ p.y ∧ p.y ≤ box.maxY :=
  ⟨h.lower.2 ⟨p, hp, rfl⟩, h.upper.2 ⟨p, hp, rfl⟩⟩

theorem minX_le_maxX (h : box.Touches points) : box.minX ≤ box.maxX :=
  h.left.2 h.right.1

theorem minY_le_maxY (h : box.Touches points) : box.minY ≤ box.maxY :=
  h.lower.2 h.upper.1

/-- A box that is a point holds no two points. -/
theorem eq_of_mem (h : box.Touches points) (hx : box.maxX = box.minX) (hy : box.maxY = box.minY)
    {q : Point Rat} (hp : p ∈ points) (hq : q ∈ points) : p = q := by
  obtain ⟨hpx, hpx'⟩ := h.mem_x hp
  obtain ⟨hpy, hpy'⟩ := h.mem_y hp
  obtain ⟨hqx, hqx'⟩ := h.mem_x hq
  obtain ⟨hqy, hqy'⟩ := h.mem_y hq
  rw [hx] at hpx' hqx'
  rw [hy] at hpy' hqy'
  exact Point.ext ((le_antisymm hpx' hpx).trans (le_antisymm hqx hqx'))
    ((le_antisymm hpy' hpy).trans (le_antisymm hqy hqy'))

end Touches

end Bounds

end Flipbook
