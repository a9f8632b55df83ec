import Mathlib.Algebra.Order.Field.Rat
import Mathlib.Algebra.Ring.MinimalAxioms
import Mathlib.Tactic.Ring
import Flipbook.Geometry.Placement

/-!
# Affine maps in exact arithmetic

With numbers that are not rounded, a product of matrices is applied factor by factor from the right,
and the matrix of a pose stretches and turns about the centre of the canvas before it displaces.
A pose that neither stretches nor turns has a shorter matrix, which maps all points alike.

None of this depends on which numbers they are, or on what a cosine is beyond no turn at all. The
laws that are used are those of a field, so that they hold of rational and of real numbers.

## Main definitions

* `ExactScalar`: scalars whose arithmetic is that of a field.
* `Point.stretch`, `Point.turn`: stretching and turning about the origin.
* `Pose.place`: where a pose puts a point.

## Main results

* `Matrix.apply_mul`, `Matrix.apply_product`: products are applied from the right;
* `Pose.apply_matrix`: the matrix of a pose puts every point where the pose does.
-/

namespace Flipbook

/-- Scalars that are computed with exactly: no operation is rounded, so that the laws of a field
hold. -/
class ExactScalar (K : Type) [Scalar K] : Prop where
  add_assoc : ∀ a b c : K, a + b + c = a + (b + c)
  zero_add : ∀ a : K, Scalar.ofInt 0 + a = a
  neg_add_cancel : ∀ a : K, -a + a = Scalar.ofInt 0
  sub_eq_add_neg : ∀ a b : K, a - b = a + -b
  mul_assoc : ∀ a b c : K, a * b * c = a * (b * c)
  mul_comm : ∀ a b : K, a * b = b * a
  one_mul : ∀ a : K, Scalar.ofInt 1 * a = a
  mul_add : ∀ a b c : K, a * (b + c) = a * b + a * c
  mul_div_cancel_right : ∀ a b : K, b ≠ Scalar.ofInt 0 → a * b / b = a
  ofInt_injective : Function.Injective (Scalar.ofInt : Int → K)
  beq_iff_eq : ∀ a b : K, (a == b) = true ↔ a = b

instance : ExactScalar Rat where
  add_assoc := Rat.add_assoc
  zero_add := Rat.zero_add
  neg_add_cancel := Rat.neg_add_cancel
  sub_eq_add_neg := Rat.sub_eq_add_neg
  mul_assoc := Rat.mul_assoc
  mul_comm := Rat.mul_comm
  one_mul := Rat.one_mul
  mul_add := Rat.mul_add
  mul_div_cancel_right _ _ h := mul_div_cancel_right₀ _ h
  ofInt_injective := Int.cast_injective
  beq_iff_eq _ _ := beq_iff_eq

section Ring

variable (K : Type) [Scalar K] [ExactScalar K]

/-- The ring of exact scalars. -/
abbrev ExactScalar.commRing : CommRing K :=
  -- Its operations are those of the scalars by definition, and so are zero and one: what `ring`
  -- proves of it can be used of scalars without translation.
  letI : Zero K := ⟨Scalar.ofInt 0⟩
  letI : One K := ⟨Scalar.ofInt 1⟩
  { CommRing.ofMinimalAxioms add_assoc zero_add neg_add_cancel mul_assoc mul_comm one_mul
      mul_add with
    sub := fun a b => a - b
    sub_eq_add_neg := sub_eq_add_neg }

end Ring

/-! ## Vectors -/

section Vectors

variable {K : Type}

instance [Scalar K] : Add (Point K) :=
  ⟨fun p q => ⟨p.x + q.x, p.y + q.y⟩⟩

instance [Scalar K] : Sub (Point K) :=
  ⟨fun p q => ⟨p.x - q.x, p.y - q.y⟩⟩

namespace Point

/-- A point after the axes have been stretched about the origin. -/
def stretch [Scalar K] (sx sy : K) (p : Point K) : Point K :=
  ⟨sx * p.x, sy * p.y⟩

/-- A point after an anticlockwise turn about the origin, by an angle in degrees. -/
def turn [Trig K] (degrees : K) (p : Point K) : Point K :=
  let cos := Trig.cos (radians degrees)
  let sin := Trig.sin (radians degrees)
  ⟨cos * p.x - sin * p.y, sin * p.x + cos * p.y⟩

end Point

/-- Where a pose puts a point: it is stretched and turned about a centre, and then displaced. -/
def Pose.place [Trig K] (pose : Pose K) (centre p : Point K) : Point K :=
  ⟨pose.x, pose.y⟩ + centre +
    ((p - centre).stretch pose.scaleX pose.scaleY).turn pose.rotation

end Vectors

/-! ## Products -/

namespace Matrix

variable {K : Type} [Scalar K] [ExactScalar K]

theorem apply_one (p : Point K) : (one : Matrix K).apply p = p := by
  let := ExactScalar.commRing K
  ext
  · change 1 * p.x + 0 * p.y + 0 = p.x
    ring
  · change 0 * p.x + 1 * p.y + 0 = p.y
    ring

/-- A product applies its second factor first. -/
theorem apply_mul (m n : Matrix K) (p : Point K) : (m.mul n).apply p = m.apply (n.apply p) := by
  let := ExactScalar.commRing K
  ext <;> simp only [apply, mul] <;> ring

/-- A product applies its factors from the right. -/
theorem apply_product (ms : List (Matrix K)) (p : Point K) :
    (product ms).apply p = ms.foldr apply p := by
  -- The product is built up from the left; what has been built acts last.
  have hfold (m : Matrix K) : (ms.foldl mul m).apply p = m.apply (ms.foldr apply p) := by
    induction ms generalizing m with
    | nil => rfl
    | cons n ms ih => rw [List.foldl_cons, ih, apply_mul, List.foldr_cons]
  rw [product, hfold, apply_one]

theorem apply_displacement (dx dy : K) (p : Point K) :
    (displacement dx dy).apply p = ⟨dx, dy⟩ + p := by
  let := ExactScalar.commRing K
  ext
  · change 1 * p.x + 0 * p.y + dx = dx + p.x
    ring
  · change 0 * p.x + 1 * p.y + dy = dy + p.y
    ring

theorem apply_scaling (sx sy : K) (p : Point K) : (scaling sx sy).apply p = p.stretch sx sy := by
  let := ExactScalar.commRing K
  ext
  · change sx * p.x + 0 * p.y + 0 = sx * p.x
    ring
  · change 0 * p.x + sy * p.y + 0 = sy * p.y
    ring

end Matrix

/-! ## Poses -/

namespace Point

variable {K : Type} [Scalar K] [ExactScalar K]

theorem add_assoc (p q r : Point K) : p + q + r = p + (q + r) :=
  Point.ext (ExactScalar.add_assoc _ _ _) (ExactScalar.add_assoc _ _ _)

theorem zero_add (p : Point K) : ⟨Scalar.ofInt 0, Scalar.ofInt 0⟩ + p = p :=
  Point.ext (ExactScalar.zero_add _) (ExactScalar.zero_add _)

theorem add_sub_cancel (c p : Point K) : c + (p - c) = p := by
  let := ExactScalar.commRing K
  ext
  · change c.x + (p.x - c.x) = p.x
    ring
  · change c.y + (p.y - c.y) = p.y
    ring

theorem neg_add_eq_sub (c p : Point K) : ⟨-c.x, -c.y⟩ + p = p - c := by
  let := ExactScalar.commRing K
  ext
  · change -c.x + p.x = p.x - c.x
    ring
  · change -c.y + p.y = p.y - c.y
    ring

theorem stretch_one (p : Point K) : p.stretch (Scalar.ofInt 1) (Scalar.ofInt 1) = p :=
  Point.ext (ExactScalar.one_mul _) (ExactScalar.one_mul _)

end Point

section Poses

variable {K : Type} [Trig K] [ExactScalar K]

theorem Matrix.apply_rotation (degrees : K) (p : Point K) :
    (rotation degrees).apply p = p.turn degrees := by
  let := ExactScalar.commRing K
  ext
  · change Trig.cos (radians degrees) * p.x + -Trig.sin (radians degrees) * p.y + 0 =
      Trig.cos (radians degrees) * p.x - Trig.sin (radians degrees) * p.y
    ring
  · change Trig.sin (radians degrees) * p.x + Trig.cos (radians degrees) * p.y + 0 =
      Trig.sin (radians degrees) * p.x + Trig.cos (radians degrees) * p.y
    ring

theorem radians_zero : radians (Scalar.ofInt 0 : K) = Scalar.ofInt 0 := by
  let := ExactScalar.commRing K
  -- The law of division is about multiples of the divisor; zero is one of 180.
  have hzero : (Scalar.ofInt 0 : K) * Trig.pi = Scalar.ofInt 0 * Scalar.ofInt 180 := by
    change 0 * Trig.pi = 0 * (Scalar.ofInt 180 : K)
    ring
  have hne : (Scalar.ofInt 180 : K) ≠ Scalar.ofInt 0 :=
    ExactScalar.ofInt_injective.ne (by decide)
  rw [radians, hzero, ExactScalar.mul_div_cancel_right _ _ hne]

/-- Of cosine and sine, only the values at zero matter for not turning at all. -/
theorem Point.turn_zero (hcos : Trig.cos (Scalar.ofInt 0 : K) = Scalar.ofInt 1)
    (hsin : Trig.sin (Scalar.ofInt 0 : K) = Scalar.ofInt 0) (p : Point K) :
    p.turn (Scalar.ofInt 0) = p := by
  let := ExactScalar.commRing K
  rw [turn, radians_zero, hcos, hsin]
  ext
  · change 1 * p.x - 0 * p.y = p.x
    ring
  · change 0 * p.x + 1 * p.y = p.y
    ring

/-- A pose that neither turns nor stretches only displaces. -/
theorem Pose.place_of_plain (hcos : Trig.cos (Scalar.ofInt 0 : K) = Scalar.ofInt 1)
    (hsin : Trig.sin (Scalar.ofInt 0 : K) = Scalar.ofInt 0) {pose : Pose K}
    (hrotation : pose.rotation = Scalar.ofInt 0) (hx : pose.scaleX = Scalar.ofInt 1)
    (hy : pose.scaleY = Scalar.ofInt 1) (centre p : Point K) :
    pose.place centre p = ⟨pose.x, pose.y⟩ + p := by
  rw [place, hrotation, hx, hy, Point.stretch_one, Point.turn_zero hcos hsin, Point.add_assoc,
    Point.add_sub_cancel]

/-- The matrix of a pose puts every point where the pose does, be it the product of all its parts or
the shorter matrix of a pose that neither turns nor stretches. -/
theorem Pose.apply_matrix (hcos : Trig.cos (Scalar.ofInt 0 : K) = Scalar.ofInt 1)
    (hsin : Trig.sin (Scalar.ofInt 0 : K) = Scalar.ofInt 0) (pose : Pose K) (area : Extent K)
    (p : Point K) : (pose.matrix area).apply p = pose.place area.centre p := by
  rw [Pose.matrix]
  split_ifs with hplain hstill
  -- Nothing to do at all, a displacement alone, and the product of all parts.
  · simp only [Scalar.isZero, Scalar.isOne, Bool.and_eq_true, ExactScalar.beq_iff_eq]
      at hplain hstill
    obtain ⟨⟨hrotation, hx⟩, hy⟩ := hplain
    rw [place_of_plain hcos hsin hrotation hx hy, hstill.1, hstill.2, Point.zero_add,
      Matrix.apply_one]
  · simp only [Scalar.isZero, Scalar.isOne, Bool.and_eq_true, ExactScalar.beq_iff_eq] at hplain
    obtain ⟨⟨hrotation, hx⟩, hy⟩ := hplain
    rw [place_of_plain hcos hsin hrotation hx hy, Matrix.apply_displacement]
  · simp only [Matrix.apply_product, List.foldr_cons, List.foldr_nil, Matrix.apply_displacement,
      Matrix.apply_scaling, Matrix.apply_rotation]
    rw [Point.neg_add_eq_sub, place, Point.add_assoc]

end Poses

end Flipbook
