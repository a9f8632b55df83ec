import Mathlib
import Flipbook.Number.Scalar
import Flipbook.Proofs.Number.Quotient

/-!
# Natural numbers in machine arithmetic

A natural number up to `2 ^ 53` has a machine number of its own: 53 bits with the highest one set,
times a power of two. Sums, comparisons and remainders of these numbers are exact as long as the
result is such a number, too. All this is read off the bits of machine numbers, as they are packed
and unpacked.

## Main definitions

* `MachineNumber.Unpacked`: the mantissa and the exponent of a natural number;
* `MachineNumber.Stands`: the machine number that stands for a natural number;
* `WholeScalar`: scalars that count exactly up to `2 ^ 53`.

## Main results

* `round_eq_of_value`: rounding is exact if the mantissa has room for the value;
* `Stands.add`, `Stands.lt_iff`, `Stands.rem`: arithmetic;
* the instances `WholeScalar Float` and `WholeScalar Rat`.
-/

namespace Flipbook

namespace MachineNumber

open Float.Model Float.Model.UnpackedFloat

section Round

variable {m M j : Nat} {k e : Int}

theorem log2_eq_of_bounds (hlow : 2 ^ 52 ≤ M) (hhigh : M < 2 ^ 53) : M.log2 = 52 :=
  (Nat.log2_eq_iff (by omega)).mpr ⟨hlow, hhigh⟩

theorem log2_mul_two_pow (hm : m ≠ 0) : (m * 2 ^ j).log2 = m.log2 + j := by
  obtain ⟨hlow, hhigh⟩ := (Nat.log2_eq_iff hm).mp rfl
  refine (Nat.log2_eq_iff (Nat.mul_ne_zero hm (Nat.two_pow_pos j).ne')).mpr ⟨?_, ?_⟩
  · rw [Nat.pow_add]
    exact Nat.mul_le_mul_right _ hlow
  · rw [Nat.add_right_comm, Nat.pow_add]
    exact Nat.mul_lt_mul_of_pos_right hhigh (Nat.two_pow_pos j)

/-- Of two ways to write a value, the one with the lesser exponent has the longer mantissa. -/
theorem eq_mul_pow_of_value (h : (m : ℚ) * 2 ^ k = M * 2 ^ e) (hle : k ≤ e) :
    m = M * 2 ^ (e - k).toNat := by
  have hsplit : (2 : ℚ) ^ e = 2 ^ (e - k).toNat * 2 ^ k := by
    rw [← zpow_natCast, Int.toNat_of_nonneg (by omega), ← zpow_add₀ (by norm_num), sub_add_cancel]
  rw [hsplit, ← mul_assoc] at h
  have hcancel := mul_right_cancel₀ (zpow_ne_zero k (by norm_num : (2 : ℚ) ≠ 0)) h
  exact_mod_cast hcancel

/-- The place of the leading bit depends on the value alone. -/
theorem totalExponent_eq_of_value (hlow : 2 ^ 52 ≤ M) (hhigh : M < 2 ^ 53)
    (h : (m : ℚ) * 2 ^ k = M * 2 ^ e) : totalExponent m k = e + 53 := by
  have hlog := log2_eq_of_bounds hlow hhigh
  rw [totalExponent]
  rcases le_total k e with hle | hle
  · rw [eq_mul_pow_of_value h hle, log2_mul_two_pow (by omega), hlog]
    omega
  · have hM := eq_mul_pow_of_value h.symm hle
    have hne : m ≠ 0 := by
      rintro rfl
      omega
    rw [hM, log2_mul_two_pow hne] at hlog
    omega

/-- The exponent that a value is rounded to is the one at which its mantissa has 53 bits. -/
theorem targetExponent_eq_of_value (hlow : 2 ^ 52 ≤ M) (hhigh : M < 2 ^ 53) (he : -1074 ≤ e)
    (h : (m : ℚ) * 2 ^ k = M * 2 ^ e) :
    Format.binary64.targetExponent (totalExponent m k) = e := by
  rw [totalExponent_eq_of_value hlow hhigh h]
  show max (e + 53 - 53) (-1074 : Int) = e
  omega

/-- Dropping zeros loses nothing. -/
theorem repeat_shiftRightOne (j M : Nat) :
    j.repeat ExtendedMantissa.shiftRightOne ⟨M * 2 ^ j, false, false⟩ = ⟨M, false, false⟩ := by
  induction j generalizing M with
  | zero => simp [Nat.repeat]
  | succ j ih =>
    rw [Nat.repeat, Nat.pow_succ, Nat.mul_comm (2 ^ j) 2, ← Nat.mul_assoc, ih,
      ExtendedMantissa.shiftRightOne]
    simp

theorem shiftToTargetExponent_eq (hlow : 2 ^ 52 ≤ M) (hhigh : M < 2 ^ 53) (he : -1074 ≤ e)
    (h : (m : ℚ) * 2 ^ k = M * 2 ^ e) (hle : k ≤ e) :
    shiftToTargetExponent Format.binary64 m k .exact = (⟨M, false, false⟩, e) := by
  rw [shiftToTargetExponent, targetExponent_eq_of_value hlow hhigh he h, shiftToExponent,
    eq_mul_pow_of_value h hle]
  refine Prod.ext (repeat_shiftRightOne _ M) ?_
  show k + ((e - k).toNat : Int) = e
  omega

/-- Rounding is exact if nothing but zeros has to be dropped. -/
theorem roundWithAccuracy_eq_of_value (hlow : 2 ^ 52 ≤ M) (hhigh : M < 2 ^ 53) (he : -1074 ≤ e)
    (h : (m : ℚ) * 2 ^ k = M * 2 ^ e) (hle : k ≤ e) :
    roundWithAccuracy Format.binary64 .positive m k .exact = .finite .positive M e (by omega) := by
  rw [roundWithAccuracy, shiftToTargetExponent_eq hlow hhigh he h hle]
  dsimp only [ExtendedMantissa.roundedMantissa, ExtendedMantissa.accuracy,
    Accuracy.roundToNearestEven]
  rw [shiftToTargetExponent_eq hlow hhigh he rfl le_rfl]
  exact dif_neg (show ¬M = 0 by omega)

/-- Rounding is exact if the mantissa has room for the value. -/
theorem round_eq_of_value (hlow : 2 ^ 52 ≤ M) (hhigh : M < 2 ^ 53) (he : -1074 ≤ e)
    (h : (m : ℚ) * 2 ^ k = M * 2 ^ e) :
    UnpackedFloat.round Format.binary64 .positive m k = .finite .positive M e (by omega) := by
  rw [UnpackedFloat.round, targetExponent_eq_of_value hlow hhigh he h]
  -- A mantissa that is too long loses zeros, and one that is too short gets some.
  rcases le_total k e with hle | hle
  · have hnone : (k - e).toNat = 0 := by omega
    simp only [decreaseExponent, hnone, Nat.shiftLeft_zero, Int.natCast_zero, Int.sub_zero]
    exact roundWithAccuracy_eq_of_value hlow hhigh he h hle
  · have hexponent : k - ((k - e).toNat : Int) = e := by omega
    simp only [decreaseExponent, hexponent, Nat.shiftLeft_eq]
    rw [← eq_mul_pow_of_value h.symm hle]
    exact roundWithAccuracy_eq_of_value hlow hhigh he rfl le_rfl

end Round

section Pack

variable {M : Nat} {e : Int}

/-- A mantissa of 53 bits is packed without the leading one. -/
theorem pack_eq (hlow : 2 ^ 52 ≤ M) (hhigh : M < 2 ^ 53) (hmost : e ≤ 971) :
    UnpackedFloat.pack Format.binary64 (.finite .positive M e (by omega)) =
      packComponents Format.binary64 .positive (BitVec.ofNat 11 (e + 1075).toNat)
        (BitVec.ofNat 52 M) := by
  have hbiased : (e + (Format.binary64.exponentBias : Int) + (52 : Nat)).toNat =
      (e + 1075).toNat := by
    show (e + 1023 + 52).toNat = _
    omega
  have hroom : ¬ 2 ^ 11 ≤ (e + 1075).toNat + 1 := by omega
  simp only [UnpackedFloat.pack, hbiased, if_neg hroom, log2_eq_of_bounds hlow hhigh]
  exact if_pos rfl

theorem toNat_append_leading (hlow : 2 ^ 52 ≤ M) (hhigh : M < 2 ^ 53) :
    (1#1 ++ BitVec.ofNat 52 M).toNat = M := by
  have hrest : M % 2 ^ 52 < 2 ^ 52 := Nat.mod_lt _ (Nat.two_pow_pos 52)
  rw [BitVec.toNat_append, BitVec.toNat_ofNat M, ← Nat.shiftLeft_add_eq_or_of_lt hrest]
  show 2 ^ 52 + M % 2 ^ 52 = M
  omega

/-- Packing and unpacking a mantissa of 53 bits with an exponent in range. -/
theorem unpack_pack (hlow : 2 ^ 52 ≤ M) (hhigh : M < 2 ^ 53) (hleast : -1074 ≤ e)
    (hmost : e ≤ 971) :
    UnpackedFloat.unpack Format.binary64
        (UnpackedFloat.pack Format.binary64 (.finite .positive M e (by omega))) =
      .finite .positive M e (by omega) := by
  have hexponent : (BitVec.ofNat 11 (e + 1075).toNat).toNat = (e + 1075).toNat := by
    rw [BitVec.toNat_ofNat, Nat.mod_eq_of_lt (by omega)]
  -- The exponent is neither that of infinity nor that of zero.
  have hfinite : BitVec.ofNat 11 (e + 1075).toNat ≠ -1#11 := by
    intro h
    have htop := congrArg BitVec.toNat h
    rw [hexponent] at htop
    change (e + 1075).toNat = 2047 at htop
    omega
  have hnormal : BitVec.ofNat 11 (e + 1075).toNat ≠ 0#11 := by
    intro h
    have hbottom := congrArg BitVec.toNat h
    rw [hexponent] at hbottom
    change (e + 1075).toNat = 0 at hbottom
    omega
  rw [pack_eq hlow hhigh hmost, UnpackedFloat.unpack]
  simp only [unpackMantissa_packComponents, unpackExponent_packComponents,
    unpackSign_packComponents, hfinite, hnormal, if_false, hexponent,
    toNat_append_leading hlow hhigh]
  congr 1
  show ((e + 1075).toNat : Int) - (1023 + 52) = e
  omega

/-- The bits of a mantissa of 53 bits with an exponent in range. -/
theorem toNat_pack (hlow : 2 ^ 52 ≤ M) (hhigh : M < 2 ^ 53) (hleast : -1074 ≤ e)
    (hmost : e ≤ 971) :
    (UnpackedFloat.pack Format.binary64 (.finite .positive M e (by omega))).toNat =
      (e + 1075).toNat * 2 ^ 52 + (M - 2 ^ 52) := by
  have hrest : M % 2 ^ 52 < 2 ^ 52 := Nat.mod_lt _ (Nat.two_pow_pos 52)
  have hmantissa : M % 2 ^ 52 = M - 2 ^ 52 := by omega
  have hexponent : (e + 1075).toNat % 2 ^ 11 = (e + 1075).toNat := Nat.mod_eq_of_lt (by omega)
  rw [pack_eq hlow hhigh hmost, packComponents, BitVec.toNat_append, BitVec.toNat_ofNat M,
    ← Nat.shiftLeft_add_eq_or_of_lt hrest, Nat.shiftLeft_eq, hmantissa, BitVec.toNat_append,
    BitVec.toNat_ofNat _ 11, hexponent]
  show (0 <<< 11 ||| (e + 1075).toNat) * 2 ^ 52 + (M - 2 ^ 52) = _
  rw [Nat.zero_shiftLeft, Nat.zero_or]

end Pack

/-- The mantissa and the exponent of a natural number: zero, or 53 bits of which the first is
set. -/
inductive Unpacked : UnpackedFloat → Nat → Prop where
  | zero : Unpacked (.zero .positive) 0
  | finite {M : Nat} {e : Int} {n : Nat} (hlow : 2 ^ 52 ≤ M) (hhigh : M < 2 ^ 53) (hleast : -52 ≤ e)
      (hmost : e ≤ 1) (hvalue : (M : ℚ) * 2 ^ e = n) :
      Unpacked (.finite .positive M e (by omega)) n

/-- A machine number that stands for a natural number. -/
def Stands (x : Float) (n : Nat) : Prop :=
  ∃ u, Unpacked u n ∧ x.toModel = .pack u

section Unpacked

variable {a b n m : Nat} {k : Int} {u v : UnpackedFloat}

theorem exists_unpacked (h : n ≤ Binary64.exactBound) : ∃ u, Unpacked u n := by
  have hexact : Binary64.exactBound = 2 ^ 53 := rfl
  rw [hexact] at h
  rcases Nat.eq_zero_or_pos n with rfl | hpos
  · exact ⟨_, .zero⟩
  · rcases Nat.eq_or_lt_of_le h with rfl | hless
    -- The greatest number has one bit more, a zero that is dropped.
    · exact ⟨_, .finite (M := 2 ^ 52) (e := 1) (by decide) (by decide) (by decide) (by decide)
        (by norm_num)⟩
    · have hbits : n.log2 < 53 := (Nat.log2_lt hpos.ne').mpr hless
      obtain ⟨hlow, hhigh⟩ := (Nat.log2_eq_iff hpos.ne').mp rfl
      refine ⟨_, .finite (M := n * 2 ^ (52 - n.log2)) (e := (n.log2 : Int) - 52) ?_ ?_ (by omega)
        (by omega) ?_⟩
      · calc 2 ^ 52 = 2 ^ n.log2 * 2 ^ (52 - n.log2) := by rw [← Nat.pow_add]; congr 1; omega
          _ ≤ n * 2 ^ (52 - n.log2) := Nat.mul_le_mul_right _ hlow
      · calc n * 2 ^ (52 - n.log2) < 2 ^ (n.log2 + 1) * 2 ^ (52 - n.log2) :=
              Nat.mul_lt_mul_of_pos_right hhigh (Nat.two_pow_pos _)
          _ = 2 ^ 53 := by rw [← Nat.pow_add]; congr 1; omega
      · push_cast
        rw [mul_assoc, ← zpow_natCast, ← zpow_add₀ (by norm_num)]
        have hnone : ((52 - n.log2 : Nat) : Int) + ((n.log2 : Int) - 52) = 0 := by omega
        rw [hnone, zpow_zero, mul_one]

theorem pos_of_value {M : Nat} {e : Int} (hlow : 2 ^ 52 ≤ M)
    (hvalue : (M : ℚ) * 2 ^ e = n) : 0 < n := by
  have hM : (0 : ℚ) < M := by exact_mod_cast (show 0 < M by omega)
  have hn : (0 : ℚ) < n := by
    rw [← hvalue]
    positivity
  exact_mod_cast hn

theorem Unpacked.unique (hu : Unpacked u n) (hv : Unpacked v n) : u = v := by
  cases hu with
  | zero =>
    cases hv with
    | zero => rfl
    | finite hlow _ _ _ hvalue => exact absurd (pos_of_value hlow hvalue) (by omega)
  | @finite M e _ hlow hhigh _ _ hvalue =>
    cases hv with
    | zero => exact absurd (pos_of_value hlow hvalue) (by omega)
    | @finite M' e' _ hlow' hhigh' _ _ hvalue' =>
      have hsame := hvalue.trans hvalue'.symm
      have he : e = e' := by
        have hself := totalExponent_eq_of_value hlow hhigh (m := M) (k := e) rfl
        rw [totalExponent_eq_of_value hlow' hhigh' hsame] at hself
        omega
      subst he
      have hM : M = M' := by simpa using eq_mul_pow_of_value hsame le_rfl
      subst hM
      rfl

/-- A value that is a natural number is rounded to it. -/
theorem unpacked_round (hpos : 0 < n) (hn : n ≤ Binary64.exactBound) (h : (m : ℚ) * 2 ^ k = n) :
    Unpacked (UnpackedFloat.round Format.binary64 .positive m k) n := by
  obtain ⟨u, hu⟩ := exists_unpacked hn
  cases hu with
  | zero => exact absurd hpos (by omega)
  | finite hlow hhigh hleast hmost hvalue =>
    rw [round_eq_of_value hlow hhigh (by omega) (h.trans hvalue.symm)]
    exact .finite hlow hhigh hleast hmost hvalue

theorem Unpacked.unpack_pack (hu : Unpacked u n) : (Float.Model.pack u).unpack = u := by
  cases hu with
  | zero => rfl
  | finite hlow hhigh hleast hmost =>
    exact MachineNumber.unpack_pack hlow hhigh (by omega) (by omega)

theorem lt_of_exponent_lt {M M' : Nat} {e e' : Int} (hhigh : M < 2 ^ 53) (hlow : 2 ^ 52 ≤ M')
    (he : e < e') (ha : (M : ℚ) * 2 ^ e = a) (hb : (M' : ℚ) * 2 ^ e' = b) : a < b := by
  have hlow : (2 : ℚ) ^ 52 ≤ M' := by exact_mod_cast hlow
  have hhigh : (M : ℚ) < 2 ^ 53 := by exact_mod_cast hhigh
  have hless : (a : ℚ) < b := by
    calc (a : ℚ) = M * 2 ^ e := ha.symm
      _ < 2 ^ 53 * 2 ^ e := by gcongr
      _ = 2 ^ 52 * 2 ^ (e + 1) := by rw [zpow_add_one₀ (by norm_num)]; ring
      _ ≤ 2 ^ 52 * 2 ^ e' := by gcongr; exacts [by norm_num, he]
      _ ≤ M' * 2 ^ e' := by gcongr
      _ = b := hb
  exact_mod_cast hless

/-- Numbers are compared by exponent, and by mantissa for the same exponent. -/
theorem Unpacked.compare_eq (hu : Unpacked u a) (hv : Unpacked v b) :
    u.compare v = some (compare a b) := by
  cases hu with
  | zero =>
    cases hv with
    | zero => rfl
    | finite hlow _ _ _ hvalue =>
      rw [Nat.compare_eq_lt.mpr (pos_of_value hlow hvalue)]
      rfl
  | @finite M e _ hlow hhigh _ _ hvalue =>
    cases hv with
    | zero =>
      rw [Nat.compare_eq_gt.mpr (pos_of_value hlow hvalue)]
      rfl
    | @finite M' e' _ hlow' hhigh' _ _ hvalue' =>
      show some ((compare e e').then (compare M M')) = some (compare a b)
      congr 1
      rcases lt_trichotomy e e' with he | rfl | he
      · rw [Int.compare_eq_lt.mpr he,
          Nat.compare_eq_lt.mpr (lt_of_exponent_lt hhigh hlow' he hvalue hvalue')]
        rfl
      · -- With one exponent for both, the values are multiples of one unit.
        rw [Int.compare_eq_eq.mpr rfl]
        have hunit : (0 : ℚ) < 2 ^ e := by positivity
        have hless : a < b ↔ M < M' := by
          rw [← Nat.cast_lt (α := ℚ), ← hvalue, ← hvalue', mul_lt_mul_iff_left₀ hunit, Nat.cast_lt]
        have hmore : b < a ↔ M' < M := by
          rw [← Nat.cast_lt (α := ℚ), ← hvalue, ← hvalue', mul_lt_mul_iff_left₀ hunit, Nat.cast_lt]
        show compare M M' = compare a b
        simp only [Nat.compare_eq_ite_lt, hless, hmore]
      · rw [Int.compare_eq_gt.mpr he,
          Nat.compare_eq_gt.mpr (lt_of_exponent_lt hhigh' hlow he hvalue' hvalue)]
        rfl

/-- A natural number is normalized to itself. -/
theorem unpacked_normalize (hpos : 0 < n) (hn : n ≤ Binary64.exactBound) (h : (m : ℚ) * 2 ^ k = n)
    (sign : Sign) : Unpacked (UnpackedFloat.normalize Format.binary64 m k sign) n := by
  have hm : 0 < m := by
    rcases Nat.eq_zero_or_pos m with rfl | hm
    · rw [Nat.cast_zero, zero_mul, eq_comm, Nat.cast_eq_zero] at h
      omega
    · exact hm
  rw [UnpackedFloat.normalize, Int.compare_eq_gt.mpr (by omega : (m : Int) > 0)]
  exact unpacked_round hpos hn h

/-- A longer mantissa for a lesser exponent. -/
theorem value_shiftLeft {M : Nat} {e : Int} (hle : k ≤ e) :
    ((M <<< (e - k).toNat : Nat) : ℚ) * 2 ^ k = M * 2 ^ e := by
  rw [Nat.shiftLeft_eq]
  push_cast
  rw [mul_assoc, ← zpow_natCast, ← zpow_add₀ (by norm_num), Int.toNat_of_nonneg (by omega),
    sub_add_cancel]

theorem Unpacked.add (hu : Unpacked u a) (hv : Unpacked v b) (h : a + b ≤ Binary64.exactBound) :
    Unpacked (UnpackedFloat.add Format.binary64 u v) (a + b) := by
  cases hu with
  | zero =>
    cases hv with
    | zero => exact .zero
    | finite hlow hhigh hleast hmost hvalue =>
      rw [Nat.zero_add]
      exact .finite hlow hhigh hleast hmost hvalue
  | @finite M e _ hlow hhigh hleast hmost hvalue =>
    cases hv with
    | zero => exact .finite hlow hhigh hleast hmost hvalue
    | @finite M' e' _ hlow' hhigh' _ _ hvalue' =>
      have hpos := pos_of_value hlow hvalue
      have hsum : ((M <<< (e - min e e').toNat + M' <<< (e' - min e e').toNat : Nat) : ℚ) *
          2 ^ min e e' = (a + b : Nat) := by
        push_cast
        rw [add_mul, value_shiftLeft (min_le_left e e'), value_shiftLeft (min_le_right e e'),
          hvalue, hvalue']
      have hnormal := unpacked_normalize (by omega) h hsum .positive
      rw [Int.natCast_add] at hnormal
      exact hnormal

end Unpacked

namespace Stands

variable {a b n : Nat} {x y z : Float}

/-- There is one machine number for each number. -/
theorem unique (hx : Stands x n) (hy : Stands y n) : x = y := by
  obtain ⟨u, hu, hx⟩ := hx
  obtain ⟨v, hv, hy⟩ := hy
  rw [← hu.unique hv] at hy
  exact congrArg Float.ofModel (hx.trans hy.symm)

theorem add (hx : Stands x a) (hy : Stands y b) (h : a + b ≤ Binary64.exactBound) :
    Stands (x + y) (a + b) := by
  obtain ⟨u, hu, hx⟩ := hx
  obtain ⟨v, hv, hy⟩ := hy
  refine ⟨_, hu.add hv h, ?_⟩
  show Float.Model.pack (UnpackedFloat.add Format.binary64 x.toModel.unpack y.toModel.unpack) = _
  rw [hx, hy, hu.unpack_pack, hv.unpack_pack]

theorem lt_iff (hx : Stands x a) (hy : Stands y b) : x < y ↔ a < b := by
  obtain ⟨u, hu, hx⟩ := hx
  obtain ⟨v, hv, hy⟩ := hy
  show decide (x.toModel.unpack.lt y.toModel.unpack = true) = true ↔ _
  rw [hx, hy, hu.unpack_pack, hv.unpack_pack, UnpackedFloat.lt, hu.compare_eq hv]
  simp [Nat.compare_eq_lt]

theorem le_iff (hx : Stands x a) (hy : Stands y b) : x ≤ y ↔ a ≤ b := by
  obtain ⟨u, hu, hx⟩ := hx
  obtain ⟨v, hv, hy⟩ := hy
  show decide (x.toModel.unpack.le y.toModel.unpack = true) = true ↔ _
  rw [hx, hy, hu.unpack_pack, hv.unpack_pack, UnpackedFloat.le, hu.compare_eq hv]
  simp [Nat.isLE_compare]

/-- What compares like zero is a zero of either sign. -/
theorem exists_zero_of_beq (hzero : Stands z 0) (h : (y == z) = true) :
    ∃ sign, y.toModel.unpack = .zero sign := by
  obtain ⟨v, hv, hz⟩ := hzero
  obtain ⟨-, -, rfl | ⟨rfl, -⟩ | ⟨rfl, -⟩⟩ := Float.beq_iff_ne_nan_and_eq.mp h
  · exact ⟨.positive, by rw [hz, hv.unpack_pack, hv.unique .zero]⟩
  · exact ⟨.positive, rfl⟩
  · exact ⟨.negative, rfl⟩

/-- A zero of either sign adds nothing. -/
theorem add_of_beq (hx : Stands x n) (hzero : Stands z 0) (h : (y == z) = true) :
    Stands (x + y) n := by
  obtain ⟨sign, hy⟩ := exists_zero_of_beq hzero h
  obtain ⟨u, hu, hx⟩ := hx
  refine ⟨u, hu, ?_⟩
  show Float.Model.pack (UnpackedFloat.add Format.binary64 x.toModel.unpack y.toModel.unpack) = _
  rw [hx, hu.unpack_pack, hy]
  cases hu <;> cases sign <;> rfl

/-- A zero of either sign is not positive. -/
theorem not_lt_of_beq (hzero : Stands z 0) (h : (y == z) = true) : ¬ z < y := by
  obtain ⟨sign, hy⟩ := exists_zero_of_beq hzero h
  obtain ⟨v, hv, hz⟩ := hzero
  show ¬ decide (z.toModel.unpack.lt y.toModel.unpack = true) = true
  rw [hz, hv.unpack_pack, hv.unique .zero, hy]
  cases sign <;> decide

theorem mul_one (hx : Stands x n) : Stands (x * Float.ofBits 0x3ff0000000000000) n := by
  obtain ⟨u, hu, hx⟩ := hx
  refine ⟨u, hu, ?_⟩
  show Float.Model.pack (UnpackedFloat.mul Format.binary64 x.toModel.unpack
    (Float.Model.ofBits 0x3ff0000000000000).unpack) = _
  have hone : (Float.Model.ofBits 0x3ff0000000000000).unpack =
      .finite .positive (2 ^ 52) (-52) (by decide) := by rfl
  rw [hx, hu.unpack_pack, hone]
  cases hu with
  | zero => rfl
  | @finite M e _ hlow hhigh hleast hmost hvalue =>
    refine congrArg Float.Model.pack ?_
    show roundWithAccuracy Format.binary64 .positive (M * 2 ^ 52) (e + -52) .exact = _
    refine roundWithAccuracy_eq_of_value hlow hhigh (by omega) ?_ (by omega)
    have hunit : (2 : ℚ) ^ 52 * 2 ^ (e + -52) = 2 ^ e := by
      rw [← zpow_natCast, ← zpow_add₀ (by norm_num)]
      congr 1
      omega
    rw [Nat.cast_mul, Nat.cast_pow, Nat.cast_ofNat, mul_assoc, hunit]

theorem mul_zero (hx : Stands x n) (hy : Stands y 0) : Stands (x * y) 0 := by
  obtain ⟨u, hu, hx⟩ := hx
  obtain ⟨v, hv, hy⟩ := hy
  refine ⟨_, .zero, ?_⟩
  show Float.Model.pack (UnpackedFloat.mul Format.binary64 x.toModel.unpack y.toModel.unpack) = _
  rw [hx, hy, hu.unpack_pack, hv.unpack_pack, hv.unique .zero]
  cases hu with
  | zero => rfl
  | finite => rfl

end Stands

theorem stands_ofNat {n : Nat} (h : n < Binary64.exactBound) : Stands (Float.ofNat n) n := by
  have hexact : Binary64.exactBound = 2 ^ 53 := rfl
  have hn : n.toUInt64.toNat = n := by
    rw [Nat.toUInt64, UInt64.toNat_ofNat']
    omega
  have hword : Stands n.toUInt64.toFloat n := by
    rcases Nat.eq_zero_or_pos n with rfl | hpos
    · exact ⟨_, .zero, rfl⟩
    · refine ⟨_, unpacked_normalize (m := n) (k := 0) hpos h.le (by norm_num) .positive, ?_⟩
      show Float.Model.pack
        (UnpackedFloat.normalize Format.binary64 (n.toUInt64.toNat : Int) 0 .positive) = _
      rw [hn]
  -- A numeral is converted as a word and scaled by a power of ten, which is one here.
  show Stands (Float.ofScientific n false 0) n
  rw [Float.ofScientific, dif_pos ⟨h, by decide⟩]
  exact hword.mul_one

/-- What compares like a positive number is that number. -/
theorem Stands.eq_of_beq {x y : Float} {n : Nat} (hy : Stands y n) (hpos : 0 < n)
    (h : (x == y) = true) : x = y := by
  have hmore : Float.ofNat 0 < y := ((stands_ofNat (by decide)).lt_iff hy).mpr hpos
  -- A zero of either sign is not positive.
  obtain ⟨-, -, rfl | ⟨-, rfl⟩ | ⟨-, rfl⟩⟩ := Float.beq_iff_ne_nan_and_eq.mp h
  · rfl
  · exact absurd hmore (by decide +kernel)
  · exact absurd hmore (by decide +kernel)

section Exact

variable {M n : Nat} {e : Int}

theorem mkRat_value (M : Nat) (e : Int) :
    mkRat (M * Nat.pow 2 e.toNat : Nat) (Nat.pow 2 (-e).toNat) = (M : ℚ) * 2 ^ e := by
  rw [Rat.mkRat_eq_div]
  rcases le_total 0 e with he | he
  · obtain ⟨k, rfl⟩ := Int.eq_ofNat_of_zero_le he
    simp
  · obtain ⟨k, hk⟩ := Int.eq_ofNat_of_zero_le (Int.neg_nonneg.mpr he)
    obtain rfl : e = -k := by omega
    simp [div_eq_mul_inv]

/-- The bits of a machine number give its exact value. -/
theorem ofFloat_of_stands {x : Float} (h : Stands x n) : Binary64.ofFloat x = .finite n := by
  obtain ⟨u, hu, hx⟩ := h
  have hbits : x.toBits.toNat = (UnpackedFloat.pack Format.binary64 u).toNat := by
    show x.toModel.toBits.toNat = _
    rw [hx]
    rfl
  rw [Binary64.ofFloat, hbits]
  cases hu with
  | zero => decide +kernel
  | @finite M e _ hlow hhigh hleast hmost hvalue =>
    rw [toNat_pack hlow hhigh (by omega) (by omega)]
    -- The parts of the bits are the sign, the biased exponent and the fraction.
    have hsign : ¬ Nat.pow 2 63 ≤ (e + 1075).toNat * 2 ^ 52 + (M - 2 ^ 52) := by
      rw [Nat.pow_eq]
      omega
    have hbiased : ((e + 1075).toNat * 2 ^ 52 + (M - 2 ^ 52)) / Nat.pow 2 52 % Nat.pow 2 11 =
        (e + 1075).toNat := by
      rw [Nat.pow_eq, Nat.pow_eq]
      omega
    have hfraction : ((e + 1075).toNat * 2 ^ 52 + (M - 2 ^ 52)) % Nat.pow 2 52 = M - 2 ^ 52 := by
      rw [Nat.pow_eq]
      omega
    have hunits : Nat.pow 2 52 + (M - 2 ^ 52) = M := by
      rw [Nat.pow_eq]
      omega
    have hplace : ((max (e + 1075).toNat 1 : Nat) : Int) - 1075 = e := by omega
    simp only [hbiased, hfraction, hunits, hplace, hsign, decide_false, Bool.false_eq_true,
      if_false]
    rw [if_neg (by omega), if_neg (by omega), mkRat_value, hvalue]

/-- The bits of a natural number. -/
theorem magnitudeBits_natCast (hlow : 2 ^ 52 ≤ M) (hhigh : M < 2 ^ 53) (hleast : -1074 ≤ e)
    (hvalue : (M : ℚ) * 2 ^ e = n) :
    Binary64.magnitudeBits n = (e + 1075).toNat * 2 ^ 52 + (M - 2 ^ 52) := by
  have hpos := pos_of_value hlow hvalue
  have hsame : (n : ℚ) * 2 ^ (0 : Int) = M * 2 ^ e := by rw [zpow_zero, mul_one, hvalue]
  have hplace : Binary64.lastPlace n 1 = e := by
    have hlog := totalExponent_eq_of_value hlow hhigh hsame
    rw [totalExponent] at hlog
    rw [Binary64.lastPlace, Binary64.log2Div_one hpos.ne']
    omega
  have hunits : n * Nat.pow 2 (-e).toNat / (1 * Nat.pow 2 e.toNat) = M := by
    rw [Nat.one_mul, Nat.pow_eq, Nat.pow_eq]
    rcases le_total 0 e with he | he
    · have hnone : (-e).toNat = 0 := by omega
      have hn := eq_mul_pow_of_value hsame he
      rw [Int.sub_zero] at hn
      rw [hnone, Nat.pow_zero, Nat.mul_one, hn, Nat.mul_div_cancel _ (Nat.two_pow_pos _)]
    · have hnone : e.toNat = 0 := by omega
      have hM := eq_mul_pow_of_value hsame.symm he
      rw [Int.zero_sub] at hM
      rw [hnone, Nat.pow_zero, Nat.div_one, ← hM]
  rw [Binary64.magnitudeBits, Rat.num_natCast, Rat.den_natCast, Int.natAbs_natCast, hplace]
  rw [hunits, if_neg (by show ¬ M < 2 ^ 52; omega)]
  rfl

theorem stands_toFloat (h : n ≤ Binary64.exactBound) : Stands (Binary64.finite n).toFloat n := by
  obtain ⟨u, hu⟩ := exists_unpacked h
  cases hu with
  | zero => exact stands_ofNat (by decide)
  | @finite M e _ hlow hhigh hleast hmost hvalue =>
    have hpos := pos_of_value hlow hvalue
    refine ⟨_, .finite hlow hhigh hleast hmost hvalue, ?_⟩
    rw [Binary64.toFloat, Rat.num_natCast, if_neg (by omega)]
    dsimp only
    rw [if_neg (by omega), magnitudeBits_natCast hlow hhigh (by omega) hvalue]
    have hbits : ((e + 1075).toNat * 2 ^ 52 + (M - 2 ^ 52)).toUInt64.toBitVec =
        UnpackedFloat.pack Format.binary64 (.finite .positive M e (by omega)) := by
      refine BitVec.eq_of_toNat_eq ?_
      rw [toNat_pack hlow hhigh (by omega) (by omega), UInt64.toNat_toBitVec, Nat.toUInt64,
        UInt64.toNat_ofNat']
      omega
    show Float.Model.pack (UnpackedFloat.unpack Format.binary64 _) = _
    rw [hbits, unpack_pack hlow hhigh (by omega) (by omega)]

end Exact

theorem stands_ofInt {n : Nat} (h : n ≤ Binary64.exactBound) : Stands (ofInt n) n := by
  rw [ofInt, Int.natAbs_natCast]
  split
  next hless => exact stands_ofNat hless
  next =>
    rw [Binary64.ofInt, Binary64.round_intCast (by simpa using h)]
    exact stands_toFloat h

theorem Stands.rem {a b : Nat} {x y : Float} (hx : Stands x a) (hy : Stands y b)
    (ha : a ≤ Binary64.exactBound) (hpos : 0 < b) (hb : b ≤ Binary64.exactBound) :
    Stands (MachineNumber.rem x y) (a % b) := by
  have hrest : a % b ≤ Binary64.exactBound := (Nat.mod_le a b).trans ha
  have hrem := Binary64.rem_ofNat ha hpos hb
  rw [Binary64.ofNat_eq_finite ha, Binary64.ofNat_eq_finite hb,
    Binary64.ofNat_eq_finite hrest] at hrem
  rw [MachineNumber.rem, ofFloat_of_stands hx, ofFloat_of_stands hy, hrem]
  split
  next hzero =>
    have hnone : a % b = 0 := by
      rw [Binary64.finite.injEq] at hzero
      exact_mod_cast hzero
    rw [hnone]
    exact hx.mul_zero (stands_ofNat (by decide))
  next => exact stands_toFloat hrest

end MachineNumber

/-- Scalars that count exactly up to `2 ^ 53`. A positive number is one scalar, while zero may have
several, which add nothing. -/
class WholeScalar (α : Type) [Scalar α] : Prop where
  ofNat_add {a b : Nat} (h : a + b ≤ Binary64.exactBound) :
    (Scalar.ofNat a : α) + Scalar.ofNat b = Scalar.ofNat (a + b)
  ofNat_lt {a b : Nat} (ha : a ≤ Binary64.exactBound) (hb : b ≤ Binary64.exactBound) :
    (Scalar.ofNat a : α) < Scalar.ofNat b ↔ a < b
  ofNat_le {a b : Nat} (ha : a ≤ Binary64.exactBound) (hb : b ≤ Binary64.exactBound) :
    (Scalar.ofNat a : α) ≤ Scalar.ofNat b ↔ a ≤ b
  rem_ofNat {a b : Nat} (ha : a ≤ Binary64.exactBound) (hpos : 0 < b)
    (hb : b ≤ Binary64.exactBound) :
    Scalar.rem (Scalar.ofNat a : α) (Scalar.ofNat b) = Scalar.ofNat (a % b)
  eq_of_beq {v : α} {n : Nat} (hpos : 0 < n) (hn : n ≤ Binary64.exactBound)
    (h : (v == Scalar.ofNat n) = true) : v = Scalar.ofNat n
  add_of_beq {v : α} {a : Nat} (ha : a ≤ Binary64.exactBound)
    (h : (v == Scalar.ofNat 0) = true) : Scalar.ofNat a + v = Scalar.ofNat a
  not_lt_of_beq {v : α} (h : (v == Scalar.ofNat 0) = true) : ¬ Scalar.ofNat 0 < v

instance : WholeScalar Float where
  ofNat_add h :=
    ((MachineNumber.stands_ofInt (by omega)).add (MachineNumber.stands_ofInt (by omega)) h).unique
      (MachineNumber.stands_ofInt h)
  ofNat_lt ha hb := (MachineNumber.stands_ofInt ha).lt_iff (MachineNumber.stands_ofInt hb)
  ofNat_le ha hb := (MachineNumber.stands_ofInt ha).le_iff (MachineNumber.stands_ofInt hb)
  rem_ofNat ha hpos hb :=
    ((MachineNumber.stands_ofInt ha).rem (MachineNumber.stands_ofInt hb) ha hpos hb).unique
      (MachineNumber.stands_ofInt ((Nat.mod_le _ _).trans ha))
  eq_of_beq hpos hn h := (MachineNumber.stands_ofInt hn).eq_of_beq hpos h
  add_of_beq ha h :=
    ((MachineNumber.stands_ofInt ha).add_of_beq (MachineNumber.stands_ofInt (by decide)) h).unique
      (MachineNumber.stands_ofInt ha)
  not_lt_of_beq h := (MachineNumber.stands_ofInt (by decide)).not_lt_of_beq h

instance : WholeScalar Rat where
  ofNat_add _ := by simp [Scalar.ofNat, Scalar.ofInt]
  ofNat_lt _ _ := by simp [Scalar.ofNat, Scalar.ofInt]
  ofNat_le _ _ := by simp [Scalar.ofNat, Scalar.ofInt]
  rem_ofNat _ hpos _ := Binary64.sub_truncDiv_mul _ hpos
  eq_of_beq _ _ h := eq_of_beq h
  add_of_beq _ h := by
    rw [eq_of_beq h]
    simp [Scalar.ofNat, Scalar.ofInt]
  not_lt_of_beq h := by rw [eq_of_beq h]; exact lt_irrefl _

namespace WholeScalar

variable {α : Type} [Scalar α] [WholeScalar α] {v w : α} {a b : Nat}

/-- Sums of scalars that are natural numbers, whatever the zeros among them are. -/
theorem ofNat_add_of_beq (h : a + b ≤ Binary64.exactBound) (hv : (v == Scalar.ofNat b) = true) :
    Scalar.ofNat a + v = Scalar.ofNat (a + b) := by
  rcases Nat.eq_zero_or_pos b with rfl | hpos
  · exact add_of_beq h hv
  · rw [eq_of_beq hpos (by omega) hv, ofNat_add h]

end WholeScalar

end Flipbook
