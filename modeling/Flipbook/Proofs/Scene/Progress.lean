import Mathlib.Algebra.Order.Field.Basic
import Mathlib.Algebra.Order.Field.Rat
import Mathlib.Tactic.Ring
import Flipbook.Proofs.Scene.Poses

/-!
# Progress in exact arithmetic

Among rational numbers, a move has made no progress up to its first frame, and all of it from its
last frame on. Without progress a change leaves a value as it is, and with all of it the change
reaches its target. A move without length makes all its progress at once.

## Main results

* `FrameRange.progress_eq_zero`, `FrameRange.progress_eq_one`: before a move, and behind it;
* `Transform.partway_zero`, `Transform.partway_one`: where a change begins, and where it ends.
-/

namespace Flipbook

theorem Scalar.maximum_eq_max (a b : Rat) : Scalar.maximum a b = max a b := by
  rw [Scalar.maximum, max_def]
  grind

theorem Scalar.minimum_eq_min (a b : Rat) : Scalar.minimum a b = min a b := by
  rw [Scalar.minimum, min_def]
  grind

namespace FrameRange

variable {range : FrameRange} {frame : Nat}

/-- Progress with the operations of an ordered field. -/
theorem progress_eq (range : FrameRange) (frame : Nat) :
    (range.span.progress (Scalar.ofNat frame) : Rat) =
      if range.last = range.first then if range.first ≤ frame then 1 else 0
      else min 1 (max 0 (((frame : Rat) - range.first) / ((range.last : Rat) - range.first))) := by
  have hcast : ∀ n : Nat, (Scalar.ofNat n : Rat) = n := fun n => rfl
  have hzero : (Scalar.ofInt 0 : Rat) = 0 := rfl
  have hone : (Scalar.ofInt 1 : Rat) = 1 := rfl
  rw [Span.progress, FrameRange.span, Scalar.clamp, Scalar.maximum_eq_max, Scalar.minimum_eq_min]
  simp only [hcast, hzero, hone, beq_iff_eq, Rat.natCast_inj, Rat.natCast_le_natCast]

/-- Up to its first frame a move has made no progress, unless it ends there as well. -/
theorem progress_eq_zero (hordered : range.first ≤ range.last) (hfirst : frame ≤ range.first)
    (hlast : frame < range.last) : (range.span.progress (Scalar.ofNat frame) : Rat) = 0 := by
  rw [progress_eq]
  split
  next hlength => rw [if_neg (by omega)]
  next =>
    have hpassed : (frame : Rat) - range.first ≤ 0 := sub_nonpos.mpr (Nat.cast_le.mpr hfirst)
    have hlength : 0 ≤ (range.last : Rat) - range.first := sub_nonneg.mpr (Nat.cast_le.mpr hordered)
    rw [max_eq_left (div_nonpos_of_nonpos_of_nonneg hpassed hlength), min_eq_right zero_le_one]

/-- From its last frame on a move has made all its progress. -/
theorem progress_eq_one (hordered : range.first ≤ range.last) (hlast : range.last ≤ frame) :
    (range.span.progress (Scalar.ofNat frame) : Rat) = 1 := by
  rw [progress_eq]
  split
  next => rw [if_pos (by omega)]
  next hne =>
    -- The move takes time, so the quotient is one at its last frame and grows from there.
    have hlength : 0 < (range.last : Rat) - range.first :=
      sub_pos.mpr (Nat.cast_lt.mpr (by omega))
    have hdone : 1 ≤ ((frame : Rat) - range.first) / ((range.last : Rat) - range.first) := by
      rw [one_le_div hlength]
      exact sub_le_sub_right (Nat.cast_le.mpr hlast) _
    rw [max_eq_right (zero_le_one.trans hdone), min_eq_left hdone]

end FrameRange

namespace Transform

theorem partway_zero (start : ChannelValue Rat) (op : Transform Rat) :
    op.partway 0 start = start := by
  cases op <;> simp [partway, Scalar.lerp]

theorem partway_one (start : ChannelValue Rat) (op : Transform Rat) :
    op.partway 1 start = op.target start := by
  cases op <;> simp [partway, target, Scalar.lerp]

end Transform

end Flipbook
