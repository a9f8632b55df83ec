import Mathlib.Algebra.Group.Nat.Defs
import Flipbook.Number.Text
import Flipbook.Proofs.Number.Natural

/-!
# The length of the text of a number

The numbers of the format are fractions whose numerators and denominators have a bounded number of
bits. So their digits, and the texts that these are arranged in, have a bounded length. The bound is
a coarse one: it only has to show that no text outgrows what can be counted exactly.

## Main definitions

* `decimals`: the count of the digits of a natural number.
* `Binary64.Valid`: the numbers that the format has.

## Main results

* `Binary64.log2_le_of_valid`: the bits of the numerator and of the denominator;
* `Binary64.length_text_lt`: the length of the text of a number of the format.
-/

namespace Flipbook

/-- The count of the decimal digits of a natural number. -/
def decimals (n : Nat) : Nat :=
  (Nat.toDigits 10 n).length

section Decimals

variable {m n k : Nat}

/-- A number has at most so many digits if it is below that power of ten. -/
theorem decimals_le (hk : 0 < k) (h : n < 10 ^ k) : decimals n ≤ k :=
  (Nat.length_toDigits_le_iff (by decide) hk).mpr h

/-- There is at least one digit. -/
theorem decimals_pos (n : Nat) : 0 < decimals n :=
  Nat.length_toDigits_pos

/-- A number is below the power of ten of its digits. -/
theorem lt_pow_decimals (n : Nat) : n < 10 ^ decimals n :=
  (Nat.length_toDigits_le_iff (by decide) (decimals_pos n)).mp (Nat.le_refl _)

/-- A smaller number has no more digits. -/
theorem decimals_mono (h : m ≤ n) : decimals m ≤ decimals n :=
  decimals_le (decimals_pos n) (Nat.lt_of_le_of_lt h (lt_pow_decimals n))

/-- A product has at most the digits of both factors. -/
theorem decimals_mul_le (m n : Nat) : decimals (m * n) ≤ decimals m + decimals n := by
  refine decimals_le (Nat.add_pos_left (decimals_pos m) _) ?_
  rw [Nat.pow_add]
  exact Nat.mul_lt_mul'' (lt_pow_decimals m) (lt_pow_decimals n)

/-- The next number has at most one digit more. -/
theorem decimals_succ_le (n : Nat) : decimals (n + 1) ≤ decimals n + 1 := by
  refine decimals_le (Nat.succ_pos _) (Nat.lt_of_le_of_lt (lt_pow_decimals n) ?_)
  exact Nat.pow_lt_pow_right (by decide) (Nat.lt_succ_self _)

/-- A power of ten has one digit more than its exponent. -/
theorem decimals_ten_pow_le (k : Nat) : decimals (10 ^ k) ≤ k + 1 :=
  decimals_le (Nat.succ_pos k) (Nat.pow_lt_pow_right (by decide) (Nat.lt_succ_self k))

/-- A power of two has fewer digits than that power of ten. -/
theorem decimals_two_pow_le (k : Nat) : decimals (2 ^ k) ≤ k + 1 :=
  Nat.le_trans (decimals_mono (Nat.pow_le_pow_left (by decide) k)) (decimals_ten_pow_le k)

/-- A number has no more digits than bits, up to one. -/
theorem decimals_le_log2 (n : Nat) : decimals n ≤ n.log2 + 2 :=
  Nat.le_trans (decimals_mono (Nat.le_of_lt Nat.lt_log2_self)) (decimals_two_pow_le _)

end Decimals

section Bits

variable {m n d k : Nat}

/-- A smaller number has no more bits. -/
theorem log2_mono (h : m ≤ n) : m.log2 ≤ n.log2 := by
  by_cases hm : m = 0
  · rw [hm, Nat.log2_zero]
    exact Nat.zero_le _
  · exact (Nat.le_log2 (by omega)).mpr (Nat.le_trans (Nat.log2_self_le hm) h)

/-- The bits of a number below a multiple of a power of two. -/
theorem log2_le_of_lt_mul (h : n < 2 ^ k * d) : n.log2 ≤ k + d.log2 := by
  by_cases hn : n = 0
  · rw [hn, Nat.log2_zero]
    exact Nat.zero_le _
  · refine Nat.le_of_lt_succ ((Nat.log2_lt hn).mpr (Nat.lt_trans h ?_))
    rw [Nat.succ_eq_add_one, Nat.add_assoc, Nat.pow_add]
    exact Nat.mul_lt_mul_of_pos_left Nat.lt_log2_self (Nat.two_pow_pos k)

end Bits

namespace Binary64

/-- A number of the format is its own nearest number. -/
def Valid : Binary64 → Prop
  | finite q => round q = finite q
  | _ => True

/-- A natural number up to `2 ^ 53` is a number of the format. -/
theorem valid_ofNat {n : Nat} (h : n ≤ exactBound) : (ofNat n).Valid := by
  rw [ofNat_eq_finite h]
  exact round_intCast (n := n) h

/-- A fraction has no greater denominator than it was written with. -/
theorem den_mkRat_le (n : Int) {d : Nat} (hd : 0 < d) : (mkRat n d).den ≤ d := by
  rw [Rat.den_mkRat, if_neg (by omega)]
  exact Nat.div_le_self d _

/-- The denominator of what is rounded has a bounded number of bits. -/
theorem log2_den_roundMagnitude_le (num den : Nat) : (roundMagnitude num den).den.log2 ≤ 1074 := by
  have hplace : (-lastPlace num den).toNat ≤ 1074 := by
    rw [lastPlace]
    omega
  rw [roundMagnitude]
  refine Nat.le_trans (log2_mono (den_mkRat_le _ (Nat.two_pow_pos _))) ?_
  rwa [Nat.pow_eq, Nat.log2_two_pow]

/-- What is rounded is not negative. -/
theorem num_roundMagnitude_nonneg (num den : Nat) : 0 ≤ (roundMagnitude num den).num := by
  rw [Rat.num_nonneg, roundMagnitude, ← Rat.divInt_ofNat]
  exact Rat.divInt_nonneg (Int.natCast_nonneg _) (Int.natCast_nonneg _)

/-- The bits of the numerator of a fraction below a power of two. -/
theorem log2_num_le {q : Rat} {k : Nat} (hnum : 0 ≤ q.num) (h : q < (Nat.pow 2 k : Nat)) :
    q.num.natAbs.log2 ≤ k + q.den.log2 := by
  refine log2_le_of_lt_mul ?_
  rw [Nat.pow_eq, Rat.lt_iff, Rat.den_natCast, Rat.num_natCast] at h
  generalize 2 ^ k = bound at h ⊢
  have hcast : ((bound * q.den : Nat) : Int) = bound * q.den := Int.natCast_mul bound q.den
  omega

/-- The numerator and the denominator of a number of the format have a bounded number of bits. -/
theorem log2_le_of_valid {q : Rat} (h : (finite q).Valid) :
    q.num.natAbs.log2 ≤ 2098 ∧ q.den.log2 ≤ 1074 := by
  rw [Valid, round] at h
  split at h
  next hint =>
    -- Integers that are small enough are kept as they are.
    have hbits : q.num.natAbs.log2 ≤ 53 := by
      refine Nat.le_trans (log2_mono hint.2) ?_
      exact Nat.le_of_eq Nat.log2_two_pow
    have hden : q.den.log2 = 0 := by
      rw [hint.1]
      decide
    omega
  next =>
    -- Any other number is a rounded magnitude with a sign.
    have hden := log2_den_roundMagnitude_le q.num.natAbs q.den
    have hnum := num_roundMagnitude_nonneg q.num.natAbs q.den
    dsimp only at h
    generalize roundMagnitude q.num.natAbs q.den = magnitude at h hden hnum
    split at h
    · cases h
    next hbound =>
      have hbits := log2_num_le hnum (Rat.not_le.mp hbound)
      have hq := finite.inj h
      split at hq
      · rw [← hq, Rat.neg_num, Rat.neg_den, Int.natAbs_neg]
        omega
      · rw [← hq]
        omega

end Binary64

namespace Shortest

/-- A decimal that is tried has at most the digits of the number at that unit, and one more. -/
theorem decimals_nearest?_le {i : Interval} {unit : Int} {n : Nat} (h : i.nearest? unit = some n) :
    decimals n ≤ decimals i.value + decimals (scales i.place unit).2 + 1 := by
  have hlow : decimals (i.value * (scales i.place unit).2 / (scales i.place unit).1) ≤
      decimals i.value + decimals (scales i.place unit).2 :=
    Nat.le_trans (decimals_mono (Nat.div_le_self _ _)) (decimals_mul_le _ _)
  have hhigh := decimals_succ_le (i.value * (scales i.place unit).2 / (scales i.place unit).1)
  have hcases : n = i.value * (scales i.place unit).2 / (scales i.place unit).1 ∨
      n = i.value * (scales i.place unit).2 / (scales i.place unit).1 + 1 := by
    rw [Interval.nearest?] at h
    dsimp only at h
    split at h
    · have hn := Option.some.inj h
      split at hn
      · exact .inr hn.symm
      · exact .inl hn.symm
    · exact .inl (Option.some.inj h).symm
    · exact .inr (Option.some.inj h).symm
    · cases h
  rcases hcases with rfl | rfl <;> omega

/-- The search ends with a decimal of one of the units that it tries, or with the number itself. -/
theorem search_eq (i : Interval) (point : Int) (fuel count : Nat) :
    search i point fuel count = (i.value, i.place) ∨
      ∃ unit, point - count - fuel ≤ unit ∧ unit ≤ point - count ∧
        i.nearest? unit = some (search i point fuel count).1 ∧
        (search i point fuel count).2 = unit := by
  induction fuel generalizing count with
  | zero => exact .inl rfl
  | succ fuel ih =>
    rw [search]
    split
    next n hn => exact .inr ⟨point - count, by omega, by omega, hn, rfl⟩
    next =>
      refine (ih (count + 1)).imp id fun ⟨unit, hlow, hhigh, hunit⟩ => ⟨unit, ?_, ?_, hunit⟩
      · push_cast at hlow ⊢
        omega
      · push_cast at hhigh
        omega

/-- The digits of the number of an interval, in quarters of its last place. -/
theorem decimals_value_le {q : Rat} (hnum : q.num.natAbs.log2 ≤ 2098) :
    decimals (Interval.ofRat q).value ≤ 3176 := by
  have hplace : (-Binary64.lastPlace q.num.natAbs q.den).toNat ≤ 1074 := by
    rw [Binary64.lastPlace]
    omega
  have hunits := Nat.le_trans (decimals_mul_le q.num.natAbs
    (2 ^ (-Binary64.lastPlace q.num.natAbs q.den).toNat))
    (Nat.add_le_add (decimals_le_log2 _) (decimals_two_pow_le _))
  simp only [Interval.ofRat, Nat.pow_eq]
  refine Nat.le_trans (decimals_mul_le 4 _) ?_
  refine Nat.le_trans (Nat.add_le_add (Nat.le_of_eq (by decide : decimals 4 = 1))
    (decimals_mono (Nat.div_le_self _ _))) ?_
  omega

section Bounded

variable {q : Rat} (hnum : q.num.natAbs.log2 ≤ 2098) (hden : q.den.log2 ≤ 1074)
include hnum hden

/-- The binary exponent of a fraction is bounded by the bits of its parts. -/
theorem log2Div_bounds :
    -1075 ≤ Binary64.log2Div q.num.natAbs q.den ∧ Binary64.log2Div q.num.natAbs q.den ≤ 2098 := by
  rw [Binary64.log2Div]
  split <;> omega

/-- The place of a quarter of the last place. -/
theorem place_bounds : -1076 ≤ (Interval.ofRat q).place ∧ (Interval.ofRat q).place ≤ 2098 := by
  have hlog := log2Div_bounds hnum hden
  rw [Interval.ofRat, Binary64.lastPlace]
  dsimp only
  omega

/-- The position of the point is bounded. -/
theorem decimalPoint_bounds : -324 ≤ decimalPoint q ∧ decimalPoint q ≤ 634 := by
  have hlog := log2Div_bounds hnum hden
  rw [decimalPoint]
  dsimp only
  split
  · omega
  split
  · omega
  · omega

/-- The count of the shortest digits, and the position of the point, are bounded. -/
theorem ofRat_bounds :
    (ofRat q).digits.length ≤ 6000 ∧ -2000 ≤ (ofRat q).point ∧ (ofRat q).point ≤ 9000 := by
  have hvalue := decimals_value_le hnum
  have hplace := place_bounds hnum hden
  have hpoint := decimalPoint_bounds hnum hden
  have hdigits (cs : List Char) :
      ((cs.reverse.dropWhile (· == '0')).reverse).length ≤ cs.length := by
    have hlength : cs.reverse.length = cs.length := List.length_reverse
    rw [List.length_reverse, ← hlength]
    exact (List.dropWhile_sublist _).length_le
  have hfound : decimals (search (Interval.ofRat q) (decimalPoint q) 17 1).1 ≤ 6000 ∧
      -1076 ≤ (search (Interval.ofRat q) (decimalPoint q) 17 1).2 ∧
      (search (Interval.ofRat q) (decimalPoint q) 17 1).2 ≤ 2098 := by
    -- The search finds digits at some unit, or falls back on the value itself.
    rcases search_eq (Interval.ofRat q) (decimalPoint q) 17 1 with h | ⟨unit, hlow, hhigh, hs, hu⟩
    · rw [h]
      dsimp only
      omega
    · have hn := decimals_nearest?_le hs
      have hscale : decimals (scales (Interval.ofRat q).place unit).2 ≤
          (Interval.ofRat q).place.toNat + 1 + ((-unit).toNat + 1) :=
        Nat.le_trans (decimals_mul_le _ _)
          (Nat.add_le_add (decimals_two_pow_le _) (decimals_ten_pow_le _))
      rw [hu]
      push_cast at hlow hhigh
      omega
  rw [ofRat]
  dsimp only
  generalize search (Interval.ofRat q) (decimalPoint q) 17 1 = found at hfound ⊢
  have hwritten : (Nat.toDigits 10 found.1).length ≤ 6000 := hfound.1
  have hkept := hdigits (Nat.toDigits 10 found.1)
  omega

end Bounded

end Shortest

/-- The text of a natural number is its digits. -/
theorem length_toString_nat (n : Nat) : (toString n).toList.length = decimals n := by
  rw [Nat.toString_eq_repr, Nat.toList_repr]
  rfl

/-- The text of an integer is its digits, with at most a sign in front. -/
theorem length_toString_int_le (n : Int) : (toString n).toList.length ≤ decimals n.natAbs + 1 := by
  cases n with
  | ofNat n =>
    show (toString n).toList.length ≤ decimals n + 1
    rw [length_toString_nat]
    exact Nat.le_succ _
  | negSucc n =>
    show ("-" ++ toString (n + 1)).toList.length ≤ decimals (n + 1) + 1
    rw [String.toList_append, List.length_append, length_toString_nat, Nat.add_comm]
    exact Nat.le_refl _

/-- The text of an exponent is its digits, with a letter and a sign in front. -/
theorem length_exponentText (e : Int) :
    (NumberLayout.exponentText e).toList.length = 2 + decimals e.natAbs := by
  rw [NumberLayout.exponentText]
  split
  · show ("e-" ++ toString e.natAbs).toList.length = _
    rw [String.toList_append, List.length_append, length_toString_nat]
    rfl
  · show ("e+" ++ toString e.natAbs).toList.length = _
    rw [String.toList_append, List.length_append, length_toString_nat]
    rfl

/-- Arranging digits adds a bounded number of zeros, a point and an exponent. -/
theorem length_arrange_le {d : DecimalDigits} (hdigits : d.digits.length ≤ 6000)
    (hlow : -2000 ≤ d.point) (hhigh : d.point ≤ 9000) :
    (NumberLayout.standard.arrange d).toList.length ≤ 6100 := by
  have hexponent : (NumberLayout.exponentText (d.point - 1)).toList.length ≤ 6 := by
    have hdecimals : decimals (d.point - 1).natAbs ≤ 4 := decimals_le (by decide) (by omega)
    rw [length_exponentText]
    omega
  have hgreatest : NumberLayout.standard.greatest = 21 := rfl
  have hleast : NumberLayout.standard.least = -6 := rfl
  -- The forms are an integer, a point inside, a point in front, and an exponent.
  rw [NumberLayout.arrange, hgreatest, hleast]
  split
  · rw [String.toList_append, List.length_append, String.toList_ofList, String.toList_ofList,
      List.length_replicate]
    omega
  split
  · simp only [String.toList_append, List.length_append, String.toList_ofList, List.length_take,
      List.length_drop]
    have hpoint : ".".toList.length = 1 := rfl
    omega
  split
  · simp only [String.toList_append, List.length_append, String.toList_ofList,
      List.length_replicate]
    have hzero : "0.".toList.length = 2 := rfl
    omega
  split
  · rw [String.toList_append, List.length_append, String.singleton_eq_ofList,
      String.toList_ofList, List.length_singleton]
    omega
  next c rest _ hcons =>
    rw [hcons, List.length_cons] at hdigits
    simp only [String.toList_append, List.length_append, String.singleton_eq_ofList,
      String.toList_ofList, List.length_singleton]
    have hpoint : ".".toList.length = 1 := rfl
    omega
  · omega

/-- No number of the format has a text of ten thousand characters. -/
theorem Binary64.length_text_lt {a : Binary64} (h : a.Valid) : a.text.toList.length < 10000 := by
  cases a with
  | nan => exact (by decide : "NaN".toList.length < 10000)
  | infinite negative =>
    cases negative with
    | true => exact (by decide : "-Infinity".toList.length < 10000)
    | false => exact (by decide : "Infinity".toList.length < 10000)
  | finite q =>
    obtain ⟨hnum, hden⟩ := log2_le_of_valid h
    -- Integers that are small enough are written out, all others with their shortest digits.
    rw [text]
    split
    next hint =>
      have hlength := length_toString_int_le q.num
      have hdecimals : decimals q.num.natAbs ≤ 16 :=
        decimals_le (by decide) (Nat.lt_trans hint.2 (by decide))
      omega
    split
    · obtain ⟨hdigits, hlow, hhigh⟩ := Shortest.ofRat_bounds (q := -q)
        (by rwa [Rat.neg_num, Int.natAbs_neg]) hden
      have harrange := length_arrange_le hdigits hlow hhigh
      rw [String.toList_append, List.length_append]
      have hsign : "-".toList.length = 1 := rfl
      omega
    · obtain ⟨hdigits, hlow, hhigh⟩ := Shortest.ofRat_bounds hnum hden
      have harrange := length_arrange_le hdigits hlow hhigh
      omega

end Flipbook
