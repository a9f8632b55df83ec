import Mathlib.Algebra.Order.Field.Basic
import Mathlib.Algebra.Order.Field.Rat
import Mathlib.Data.Rat.Floor
import Mathlib.Tactic.Ring
import Flipbook.Proofs.Number.Whole

/-!
# The whole part of a rounded quotient

A quotient of natural numbers below `2 ^ 53` is rounded, but never up to the next whole number: the
room below that number is at least half a unit in the last place. So its whole part is the quotient
of the division with remainder, as if nothing had been rounded.

## Main results

* `floor_roundMagnitude`: rounding keeps the whole part if the last place is small enough;
* `floor_div_ofNat`, `rem_ofNat`: quotient and remainder of natural numbers.
-/

namespace Flipbook.Binary64

section Exponent

variable {num den : Nat}

/-- The binary exponent of a fraction is not too great. -/
theorem mul_pow_log2Div_le (hnum : num ≠ 0) (h : 0 ≤ log2Div num den) :
    den * 2 ^ (log2Div num den).toNat ≤ num := by
  have hlow : 2 ^ num.log2 ≤ num := Nat.log2_self_le hnum
  have hhigh : den < 2 ^ (den.log2 + 1) := Nat.lt_log2_self
  rw [log2Div] at h ⊢
  split at h
  next hbelow =>
    -- The exponent is less by one, which makes up for what the leading bits leave out.
    have hsum : den.log2 + 1 + ((num.log2 : Int) - den.log2 - 1).toNat = num.log2 := by omega
    rw [if_pos hbelow]
    refine Nat.le_trans (Nat.mul_le_mul_right _ hhigh.le) ?_
    rwa [← Nat.pow_add, hsum]
  next hbelow =>
    have hzero : (-((num.log2 : Int) - den.log2)).toNat = 0 := by omega
    rw [if_neg hbelow]
    rw [hzero] at hbelow
    simpa using hbelow

/-- The binary exponent of a fraction is not too small. -/
theorem neg_log2_le_log2Div (num den : Nat) : -(den.log2 : Int) - 1 ≤ log2Div num den := by
  rw [log2Div]
  split <;> omega

/-- The last place of a fraction of natural numbers below `2 ^ 53` is small against its
denominator. -/
theorem exists_lastPlace_eq (hnum : num ≠ 0) (hn : num < exactBound) (hpos : 0 < den)
    (hd : den ≤ exactBound) :
    ∃ place : Nat, lastPlace num den = -place ∧ den < 2 * 2 ^ place := by
  have hexact : exactBound = 2 ^ 53 := rfl
  have hbits : den.log2 ≤ 53 :=
    Nat.le_trans (log2_mono hd) (Nat.le_of_eq (Nat.log2_two_pow (n := 53)))
  have hleast := neg_log2_le_log2Div num den
  rw [hexact] at hn hd
  by_cases hsign : 0 ≤ log2Div num den
  · -- The denominator and the exponent share the 53 bits of the numerator.
    have hshare := Nat.lt_of_le_of_lt (mul_pow_log2Div_le hnum hsign) hn
    have hexponent : (log2Div num den).toNat < 53 :=
      (Nat.pow_lt_pow_iff_right (by decide)).mp
        (Nat.lt_of_le_of_lt (Nat.le_mul_of_pos_left _ hpos) hshare)
    refine ⟨52 - (log2Div num den).toNat, ?_, ?_⟩
    · rw [lastPlace]
      omega
    · have hdouble : 2 * 2 ^ (52 - (log2Div num den).toNat) =
          2 ^ (53 - (log2Div num den).toNat) := by
        rw [← Nat.pow_succ', Nat.succ_eq_add_one, ← Nat.sub_add_comm (by omega)]
      rw [hdouble]
      by_contra hlarge
      have hsplit : 2 ^ (53 - (log2Div num den).toNat) * 2 ^ (log2Div num den).toNat = 2 ^ 53 := by
        rw [← Nat.pow_add, Nat.sub_add_cancel hexponent.le]
      exact absurd (Nat.mul_le_mul_right _ (Nat.not_lt.mp hlarge)) (by rw [hsplit]; omega)
  · refine ⟨(52 - log2Div num den).toNat, ?_, ?_⟩
    · rw [lastPlace]
      omega
    · rw [← Nat.pow_succ']
      exact Nat.lt_of_le_of_lt hd (Nat.pow_lt_pow_right (by decide) (by omega))

end Exponent

section Floor

variable {num den place : Nat}

/-- Rounding keeps the whole part, if half a unit in the last place is less than what the fraction
has to the next whole number at least. -/
theorem floor_roundMagnitude (hpos : 0 < den) (hplace : lastPlace num den = -place)
    (h : den < 2 * 2 ^ place) : (roundMagnitude num den).floor = (num / den : Nat) := by
  have hunit : 0 < 2 ^ place := Nat.two_pow_pos place
  have hsplit := Nat.div_add_mod num den
  have hrest := Nat.mod_lt num hpos
  have hmagnitude : roundMagnitude num den =
      (roundDiv (num * 2 ^ place) den : Rat) / (2 ^ place : Nat) := by
    rw [roundMagnitude, hplace]
    simp only [Int.toNat_neg_natCast, Int.neg_neg, Int.toNat_natCast, Nat.pow_eq, Nat.pow_zero,
      Nat.mul_one, Rat.mkRat_eq_div]
    push_cast
    rfl
  -- In units of the last place, the whole number is a lower bound, and the next one is not reached.
  have hlow : num / den * 2 ^ place ≤ roundDiv (num * 2 ^ place) den := by
    refine Nat.le_trans ((Nat.le_div_iff_mul_le hpos).mpr ?_) (div_le_roundDiv _ _)
    rw [Nat.mul_right_comm]
    exact Nat.mul_le_mul_right _ (Nat.div_mul_le_self num den)
  have hhigh : roundDiv (num * 2 ^ place) den < (num / den + 1) * 2 ^ place := by
    have hnext : 0 < (num / den + 1) * 2 ^ place := by positivity
    have hroom : (num + 1) * 2 ^ place ≤ (num / den + 1) * 2 ^ place * den := by
      rw [Nat.mul_right_comm]
      refine Nat.mul_le_mul_right _ ?_
      rw [Nat.succ_mul, Nat.mul_comm]
      omega
    obtain ⟨last, hlast⟩ := Nat.exists_eq_succ_of_ne_zero hnext.ne'
    rw [hlast] at hroom ⊢
    refine Nat.lt_succ_of_le (roundDiv_le ?_)
    have hunits : (num + 1) * 2 ^ place = num * 2 ^ place + 2 ^ place := Nat.succ_mul _ _
    have hdouble : (2 * last + 1) * den + den = 2 * (last.succ * den) := by
      rw [Nat.succ_eq_add_one]
      ring
    omega
  rw [hmagnitude]
  apply le_antisymm
  · rw [← Int.lt_add_one_iff, Rat.floor_lt_iff, div_lt_iff₀ (by exact_mod_cast hunit)]
    exact_mod_cast hhigh
  · rw [Rat.le_floor_iff, le_div_iff₀ (by exact_mod_cast hunit)]
    exact_mod_cast hlow

/-- In its lowest terms, a quotient of natural numbers has no greater numerator and denominator, and
the same whole part. -/
theorem num_den_bounds (m : Nat) {d : Nat} (hpos : 0 < d) :
    0 ≤ ((m : Rat) / d).num ∧ ((m : Rat) / d).num.natAbs ≤ m ∧ ((m : Rat) / d).den ≤ d ∧
      ((m : Rat) / d).num.natAbs / ((m : Rat) / d).den = m / d := by
  have hnum : 0 ≤ ((m : Rat) / d).num :=
    Rat.num_nonneg.mpr (div_nonneg (Nat.cast_nonneg m) (Nat.cast_nonneg d))
  have hden : ((m : Rat) / d).den ≤ d := by
    have hmk : (m : Rat) / d = mkRat m d := by rw [Rat.mkRat_eq_div]; rfl
    rw [hmk]
    exact den_mkRat_le m hpos
  have hdenPos : 0 < ((m : Rat) / d).den := ((m : Rat) / d).den_pos
  have hvalue : (((m : Rat) / d).num.natAbs : Rat) / ((m : Rat) / d).den = m / d := by
    rw [← Int.cast_natCast, Int.natAbs_of_nonneg hnum, Rat.num_div_den]
  generalize ((m : Rat) / d).den = q at hden hdenPos hvalue ⊢
  generalize ((m : Rat) / d).num.natAbs = p at hvalue ⊢
  have hcross : p * d = m * q := by
    rw [div_eq_div_iff (by positivity) (by positivity)] at hvalue
    exact_mod_cast hvalue
  refine ⟨hnum, ?_, hden, ?_⟩
  · refine Nat.le_of_mul_le_mul_right ?_ hpos
    rw [hcross]
    exact Nat.mul_le_mul_left m hden
  · calc p / q = p * d / (q * d) := (Nat.mul_div_mul_right p q hpos).symm
      _ = m * q / (d * q) := by rw [hcross, Nat.mul_comm q d]
      _ = m / d := Nat.mul_div_mul_right m d hdenPos

/-- The whole part of a rounded quotient is the quotient of the division with remainder. -/
theorem floor_div_ofNat {m d : Nat} (hm : m < exactBound) (hpos : 0 < d) (hd : d ≤ exactBound) :
    ((ofNat m).div (ofNat d)).floor = ofNat (m / d) := by
  have hquotient : (ofNat m).div (ofNat d) = round ((m : Rat) / d) := by
    rw [ofNat_eq_finite hm.le, ofNat_eq_finite hd]
    have hne : (d : Rat) ≠ 0 := by positivity
    exact if_pos hne
  have hwhole : m / d < exactBound := Nat.lt_of_le_of_lt (Nat.div_le_self m d) hm
  obtain ⟨hnum, hnumLe, hdenLe, hdiv⟩ := num_den_bounds m hpos
  rw [hquotient, ofNat_eq_finite hwhole.le]
  generalize (m : Rat) / d = q at hnum hnumLe hdenLe hdiv ⊢
  rw [round]
  split
  next hint =>
    -- A whole quotient is not rounded.
    have hfloor : q.floor = (m / d : Nat) := by
      rw [Rat.floor_def, ← hdiv, Int.natCast_ediv, Int.natAbs_of_nonneg hnum]
    rw [floor, hfloor]
    rfl
  next hint =>
    have hne : q.num.natAbs ≠ 0 := by
      intro hzero
      have hq : q = 0 := Rat.num_eq_zero.mp (Int.natAbs_eq_zero.mp hzero)
      exact hint ⟨by rw [hq]; rfl, by omega⟩
    obtain ⟨place, hplace, hsmall⟩ := exists_lastPlace_eq hne (Nat.lt_of_le_of_lt hnumLe hm)
      q.den_pos (hdenLe.trans hd)
    have hfloor := floor_roundMagnitude q.den_pos hplace hsmall
    rw [hdiv] at hfloor
    -- The quotient is far below the numbers that are rounded to infinity.
    have hfinite : ¬ (Nat.pow 2 1024 : Nat) ≤ roundMagnitude q.num.natAbs q.den := by
      intro hlarge
      rw [pow_eq_mul_unit, ← Rat.intCast_natCast, ← Rat.le_floor_iff, hfloor, Int.ofNat_le]
        at hlarge
      have hunit := exactBound_lt_unit
      have hexact : exactBound = 2 ^ 53 := rfl
      generalize 2 ^ topPlace = unit at hlarge hunit
      omega
    dsimp only
    rw [if_neg hfinite, if_neg (not_lt.mpr hnum), floor, hfloor]
    rfl

/-- What a division toward zero leaves of a natural number. -/
theorem sub_truncDiv_mul (m : Nat) {d : Nat} (hpos : 0 < d) :
    (m : Rat) - truncDiv m d * d = (m % d : Nat) := by
  have hfloor : truncDiv m d = (m / d : Nat) := by
    rw [truncDiv, if_neg (not_lt.mpr (by positivity))]
    exact Rat.floor_natCast_div_natCast m d
  have hsplit : (d : Rat) * (m / d : Nat) + (m % d : Nat) = m := by
    exact_mod_cast Nat.div_add_mod m d
  rw [hfloor, Int.cast_natCast, ← hsplit, Rat.mul_comm, add_sub_cancel_left]

/-- The remainder needs no rounding. -/
theorem rem_ofNat {m d : Nat} (hm : m ≤ exactBound) (hpos : 0 < d) (hd : d ≤ exactBound) :
    (ofNat m).rem (ofNat d) = ofNat (m % d) := by
  have hrest : m % d ≤ exactBound := (Nat.mod_le m d).trans hm
  have hne : (d : Rat) ≠ 0 := by positivity
  rw [ofNat_eq_finite hm, ofNat_eq_finite hd, ofNat_eq_finite hrest, rem, if_neg hne,
    sub_truncDiv_mul m hpos]

end Floor

end Flipbook.Binary64
