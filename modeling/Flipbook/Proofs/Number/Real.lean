import Mathlib.Analysis.SpecialFunctions.Complex.Arg
import Flipbook.Proofs.Geometry.Affine

/-!
# Real numbers as scalars

Drawings can be computed in real numbers, at least on paper. Then nothing is rounded, and square
roots, sines, cosines and angles are what they are in mathematics.

## Main results

* The instances `Scalar ℝ`, `Trig ℝ` and `ExactScalar ℝ`.
-/

namespace Flipbook

noncomputable section

/-- A rounding to double precision changes at multiples of `2 ^ (-1100)` only. So a real number is
rounded like the middle between the multiples on either side of it. -/
instance : Scalar ℝ where
  beq a b := open Classical in decide (a = b)
  decidableLT := Classical.decRel _
  decidableLE := Classical.decRel _
  ofInt n := n
  ofDecimal d := (d.toRat : ℝ)
  ofBinary64 b :=
    match b with
    | .finite q => (q : ℝ)
    | _ => 0
  isFinite _ := true
  round x := ⌊x + 1 / 2⌋
  ceil x := ⌈x⌉
  rem a b := a - (if a / b < 0 then ⌈a / b⌉ else ⌊a / b⌋ : ℤ) * b
  toBinary64 x := .round (((⌊x * 2 ^ 1100⌋ + ⌈x * 2 ^ 1100⌉ : ℤ) : ℚ) / 2 ^ 1101)

instance : Trig ℝ where
  sqrt := Real.sqrt
  sin := Real.sin
  cos := Real.cos
  atan2 y x := Complex.arg ⟨x, y⟩
  pi := Real.pi

instance : ExactScalar ℝ where
  add_assoc := add_assoc
  zero_add a := by
    change ((0 : ℤ) : ℝ) + a = a
    rw [Int.cast_zero, zero_add]
  neg_add_cancel a := by
    change -a + a = ((0 : ℤ) : ℝ)
    rw [Int.cast_zero, neg_add_cancel]
  sub_eq_add_neg := sub_eq_add_neg
  mul_assoc := mul_assoc
  mul_comm := mul_comm
  one_mul a := by
    change ((1 : ℤ) : ℝ) * a = a
    rw [Int.cast_one, one_mul]
  mul_add := mul_add
  mul_div_cancel_right a b h := by
    refine mul_div_cancel_right₀ a fun hb => h ?_
    change b = ((0 : ℤ) : ℝ)
    rw [hb, Int.cast_zero]
  ofInt_injective := Int.cast_injective
  beq_iff_eq a b := by
    classical
    exact decide_eq_true_iff

end

end Flipbook
