import Flipbook.Proofs.Number.Length

/-!
# Whole numbers beyond `2 ^ 53`

Sums of whole numbers of the format are rounded, but they stay whole, and they neither fall below
`2 ^ 53` nor become infinite when only a little is added. So counting up from any number of the
format leads to a number that a file may have.

## Main definitions

* `Binary64.greatest`: the greatest finite number.
* `Binary64.Whole`: the finite whole numbers from a bound on.

## Main results

* `exists_round_natCast`: whole numbers are rounded to whole numbers;
* `Whole.add`, `Whole.sub_one`: counting.
-/

namespace Flipbook.Binary64

/-- The exponent of the last place of the greatest finite number. It stays folded, so that no power
of two with this exponent is ever evaluated. -/
@[irreducible]
def topPlace : Nat :=
  971

/-- The greatest finite number of the format: all its 53 bits are set. -/
def greatest : Nat :=
  (2 ^ 53 - 1) * 2 ^ topPlace

theorem topPlace_eq : topPlace = 971 := by
  rw [topPlace]

theorem exactBound_lt_unit : 2 * exactBound < 2 ^ topPlace := by
  have htwice : 2 * exactBound = 2 ^ 54 := by decide
  have hplace := topPlace_eq
  rw [htwice]
  exact Nat.pow_lt_pow_right (by decide) (by omega)

theorem exactBound_le_greatest : exactBound ≤ greatest := by
  have hunit := exactBound_lt_unit
  rw [greatest]
  generalize 2 ^ topPlace = unit at hunit ⊢
  omega

theorem greatest_add_lt : greatest + exactBound < 2 ^ 53 * 2 ^ topPlace := by
  have hunit := exactBound_lt_unit
  rw [greatest]
  generalize 2 ^ topPlace = unit at hunit ⊢
  omega

/-- Infinity begins where one more bit is needed. -/
theorem pow_eq_mul_unit : Nat.pow 2 1024 = 2 ^ 53 * 2 ^ topPlace := by
  have hplaces : 1024 = 53 + topPlace := by rw [topPlace_eq]
  rw [hplaces]
  exact Nat.pow_add 2 53 topPlace

section Round

variable {n d u : Nat}

theorem div_le_roundDiv (n d : Nat) : n / d ≤ roundDiv n d := by
  rw [roundDiv]
  split <;> omega

/-- What is below the middle between two neighbours is not rounded up. -/
theorem roundDiv_le (h : 2 * n < (2 * u + 1) * d) : roundDiv n d ≤ u := by
  have hsplit := Nat.div_add_mod n d
  rw [roundDiv]
  by_cases hlow : n / d < u
  · split <;> omega
  · -- The quotient is not below `u`, so the rest is less than half of `d`.
    have hmul : d * u ≤ d * (n / d) := Nat.mul_le_mul_left d (Nat.not_lt.mp hlow)
    have htwice : (2 * u + 1) * d = 2 * (d * u) + d := by
      rw [Nat.add_mul, Nat.one_mul, Nat.mul_assoc, Nat.mul_comm u d]
    have hdiv : n / d < u + 1 := by
      refine Nat.div_lt_of_lt_mul ?_
      rw [Nat.mul_succ]
      omega
    rw [if_neg (by omega)]
    omega

/-- The binary exponent of a natural number. -/
theorem log2Div_one (hn : n ≠ 0) : log2Div n 1 = n.log2 := by
  have hone : Nat.log2 1 = 0 := by decide
  have hlow : 2 ^ n.log2 ≤ n := Nat.log2_self_le hn
  rw [log2Div]
  simp only [hone, Nat.pow_eq]
  rw [if_neg]
  · omega
  · simp only [Int.natCast_zero, Int.sub_zero, Int.toNat_natCast, Int.toNat_neg_natCast,
      Nat.pow_zero, Nat.mul_one, Nat.one_mul, Nat.not_lt]
    exact hlow

/-- The units of the last place in a natural number beyond `2 ^ 53`, when it is rounded. -/
def units (n : Nat) : Nat :=
  roundDiv n (2 ^ (n.log2 - 52))

theorem le_log2 (h : exactBound < n) : 53 ≤ n.log2 :=
  (Nat.le_log2 (by omega)).mpr (Nat.le_of_lt h)

theorem units_bounds (h : exactBound < n) : 2 ^ 52 ≤ units n ∧ units n ≤ 2 ^ 53 := by
  have hlog := le_log2 h
  have hlow : 2 ^ 52 * 2 ^ (n.log2 - 52) ≤ n := by
    rw [← Nat.pow_add, Nat.add_sub_cancel' (by omega)]
    exact Nat.log2_self_le (by omega)
  have hhigh : n < 2 ^ 53 * 2 ^ (n.log2 - 52) := by
    rw [← Nat.pow_add, show 53 + (n.log2 - 52) = n.log2 + 1 by omega]
    exact Nat.lt_log2_self
  have hpos : 0 < 2 ^ (n.log2 - 52) := Nat.two_pow_pos _
  refine ⟨Nat.le_trans ?_ (div_le_roundDiv _ _), roundDiv_le (by omega)⟩
  exact (Nat.le_div_iff_mul_le hpos).mpr hlow

/-- Beyond `2 ^ 53` a natural number is rounded to a multiple of a power of two. -/
theorem round_natCast (h : exactBound < n) :
    round n = if 2 ^ 53 * 2 ^ topPlace ≤ units n * 2 ^ (n.log2 - 52) then infinite false
      else finite (units n * 2 ^ (n.log2 - 52) : Nat) := by
  have hlog := le_log2 h
  have hplace : lastPlace n 1 = (n.log2 - 52 : Nat) := by
    rw [lastPlace, log2Div_one (by omega)]
    omega
  have hmagnitude : roundMagnitude n 1 = (units n * 2 ^ (n.log2 - 52) : Nat) := by
    rw [roundMagnitude, hplace]
    simp only [Int.toNat_natCast, Int.toNat_neg_natCast, Nat.pow_eq, Nat.pow_zero, Nat.mul_one,
      Nat.one_mul, Rat.mkRat_one, Rat.intCast_natCast, units]
  have hsign : ¬ (n : Int) < 0 := by omega
  rw [round, if_neg (by simp only [Rat.num_natCast, Int.natAbs_natCast]; omega)]
  simp only [hsign, decide_false, if_false, Rat.num_natCast, Int.natAbs_natCast, Rat.den_natCast,
    hmagnitude, Rat.natCast_le_natCast, pow_eq_mul_unit]

/-- What is rounded does not fall below the integers that are exact. -/
theorem exactBound_le_rounded (h : exactBound < n) :
    exactBound ≤ units n * 2 ^ (n.log2 - 52) := by
  have hlog := le_log2 h
  calc exactBound = 2 ^ 52 * 2 ^ 1 := by decide
    _ ≤ units n * 2 ^ (n.log2 - 52) :=
      Nat.mul_le_mul (units_bounds h).1 (Nat.pow_le_pow_right (by decide) (by omega))

/-- Below the last binade all that is rounded is finite. -/
theorem rounded_le_of_lt (h : exactBound < n) (hlog : n.log2 - 52 < topPlace) :
    units n * 2 ^ (n.log2 - 52) ≤ greatest := by
  have hpow : 2 * 2 ^ (n.log2 - 52) ≤ 2 ^ topPlace := by
    rw [← Nat.pow_succ']
    exact Nat.pow_le_pow_right (by decide) hlog
  refine Nat.le_trans (Nat.mul_le_mul_right _ (units_bounds h).2) ?_
  rw [greatest]
  generalize 2 ^ topPlace = unit at hpow ⊢
  omega

/-- The last binade ends where infinity begins. -/
theorem log2_sub_le (h : exactBound < n) (hlt : n < 2 ^ 53 * 2 ^ topPlace) :
    n.log2 - 52 ≤ topPlace := by
  have hlast : n.log2 < 53 + topPlace := by
    rw [Nat.log2_lt (by omega), Nat.pow_add]
    exact hlt
  omega

/-- A whole number that is not too great is rounded to a finite one. -/
theorem exists_round_natCast (h : n ≤ greatest + exactBound) :
    ∃ m : Nat, round n = finite m ∧ min n exactBound ≤ m ∧ m ≤ greatest := by
  by_cases hexact : n ≤ exactBound
  · exact ⟨n, round_intCast (n := n) hexact, Nat.min_le_left _ _,
      Nat.le_trans hexact exactBound_le_greatest⟩
  · have hbeyond : exactBound < n := Nat.lt_of_not_le hexact
    have hlast := log2_sub_le hbeyond (Nat.lt_of_le_of_lt h greatest_add_lt)
    have hmost : units n * 2 ^ (n.log2 - 52) ≤ greatest := by
      rcases Nat.lt_or_eq_of_le hlast with hlt | heq
      · exact rounded_le_of_lt hbeyond hlt
      · -- All bits of the greatest number are set, and what is added is less than half a unit.
        have hunit := exactBound_lt_unit
        rw [units, heq]
        refine Nat.mul_le_mul_right _ (roundDiv_le ?_)
        rw [greatest] at h
        generalize 2 ^ topPlace = unit at hunit h ⊢
        omega
    have hleast := exactBound_le_rounded hbeyond
    have hfinite := greatest_add_lt
    refine ⟨_, ?_, Nat.le_trans (Nat.min_le_right n exactBound) hleast, hmost⟩
    rw [round_natCast hbeyond, if_neg (by omega)]

/-- A whole number of the format is at most the greatest one. -/
theorem le_greatest_of_valid (h : (finite (n : Rat)).Valid) : n ≤ greatest := by
  by_cases hexact : n ≤ exactBound
  · exact Nat.le_trans hexact exactBound_le_greatest
  · have hbeyond : exactBound < n := Nat.lt_of_not_le hexact
    rw [Valid, round_natCast hbeyond] at h
    split at h
    · cases h
    next hfinite =>
      have heq : units n * 2 ^ (n.log2 - 52) = n := by
        rw [finite.injEq, Rat.natCast_inj] at h
        exact h
      rcases Nat.lt_or_eq_of_le (log2_sub_le hbeyond (by omega)) with hlt | hlast
      · rw [← heq]
        exact rounded_le_of_lt hbeyond hlt
      · -- In the last binade, the next multiple of the unit would be infinite.
        rw [hlast] at heq hfinite
        have hunits : units n < 2 ^ 53 := Nat.lt_of_mul_lt_mul_right (Nat.lt_of_not_le hfinite)
        rw [← heq, greatest]
        exact Nat.mul_le_mul_right _ (Nat.le_sub_one_of_lt hunits)

end Round

/-- The finite whole numbers from a bound on. -/
def Whole (low : Nat) (a : Binary64) : Prop :=
  ∃ n : Nat, a = finite n ∧ low ≤ n ∧ n ≤ greatest

namespace Whole

variable {low k : Nat} {a : Binary64}

theorem mono {low' : Nat} (h : Whole low a) (hle : low' ≤ low) : Whole low' a := by
  obtain ⟨n, hn, hlow, hgreatest⟩ := h
  exact ⟨n, hn, Nat.le_trans hle hlow, hgreatest⟩

/-- Counting up goes at least to the sum, as far as that is exact. -/
theorem add (h : Whole low a) (hk : k ≤ exactBound) :
    Whole (min (low + k) exactBound) (a + ofNat k) := by
  obtain ⟨n, rfl, hlow, hgreatest⟩ := h
  obtain ⟨m, hm, hleast, hmost⟩ := exists_round_natCast (Nat.add_le_add hgreatest hk)
  refine ⟨m, ?_, by omega, hmost⟩
  rw [ofNat_eq_finite hk]
  show round (n + k) = finite m
  rw [← Rat.natCast_add, hm]

/-- Counting down goes one down at most. -/
theorem sub_one (h : Whole (low + 1) a) (hlow : low ≤ exactBound) : Whole low (a - 1) := by
  obtain ⟨n, rfl, hle, hgreatest⟩ := h
  obtain ⟨before, rfl⟩ := Nat.exists_eq_succ_of_ne_zero (by omega : n ≠ 0)
  obtain ⟨m, hm, hleast, hmost⟩ := exists_round_natCast (n := before) (by omega)
  refine ⟨m, ?_, by omega, hmost⟩
  have hone : (1 : Binary64) = finite (1 : Nat) := ofNat_eq_finite (by decide)
  rw [hone]
  show round ((before + 1 : Nat) + -(1 : Nat)) = finite m
  rw [Rat.natCast_add, Rat.add_assoc, Rat.add_neg_cancel, Rat.add_zero, hm]

theorem isInteger (h : Whole low a) : a.isInteger = true := by
  obtain ⟨n, rfl, -, -⟩ := h
  simp [Binary64.isInteger, toInt?]

theorem not_lt_one (h : Whole 1 a) : a.lt 1 = false := by
  obtain ⟨n, rfl, hle, -⟩ := h
  have hone : (1 : Binary64) = finite (1 : Nat) := ofNat_eq_finite (by decide)
  rw [hone, lt, decide_eq_false_iff_not, Rat.natCast_lt_natCast]
  omega

end Whole

end Flipbook.Binary64
