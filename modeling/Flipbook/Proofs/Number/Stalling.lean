import Flipbook.Proofs.Number.Order
import Flipbook.Proofs.Number.Shortest

/-!
# Where counting stalls

Adding one to a whole number of the format from `2 ^ 53` on gives this number or the next one, and
once it gives the same number it always does. A number that comes behind another one is such a
number at once: where there is no room for every integer, the successor of a number is even in its
last place, and a tie stays there.

## Main results

* `Normal.add_one_add_one`: from `2 ^ 53` on, the second step leads nowhere;
* `digitsNumber_add_one_cases`: behind a number that is written with digits, counting is exact or
  leads nowhere.
-/

namespace Flipbook.Binary64

variable {u p n : Nat}

/-- A natural number plus one, rounded. -/
theorem finite_add_one (n : Nat) : finite n + 1 = round (n + 1 : Nat) := by
  have hone : (1 : Binary64) = finite (1 : Nat) := ofNat_eq_finite (by decide)
  rw [hone, Rat.natCast_add]
  rfl

/-- One more is rounded down, if it is less than half a unit in the last place, or half of it and
the last place is even. -/
theorem Normal.add_one (h : Normal u p) (hstays : u % 2 = 0 ∨ 2 ≤ p) :
    finite (u * 2 ^ p : Nat) + 1 = finite (u * 2 ^ p : Nat) := by
  have hunit : 2 ≤ 2 ^ p := Nat.le_self_pow h.pos.ne' 2
  have hleast : 2 ^ 52 * 2 ^ p ≤ u * 2 ^ p := Nat.mul_le_mul_right _ h.least
  rw [finite_add_one]
  -- A unit is two or more, and one is less than half of it unless it is two.
  refine h.round_of_near (by omega) (by omega) (by omega) (hstays.imp_right fun htwo => ?_)
  have hfour : 2 ^ 2 ≤ 2 ^ p := Nat.pow_le_pow_right (by decide) htwo
  omega

/-- The successor of an odd number of units is the next even one. -/
theorem Normal.exists_add_one_eq (h : Normal u 1) (hodd : u % 2 = 1) :
    ∃ v q, Normal v q ∧ (v % 2 = 0 ∨ 2 ≤ q) ∧
      finite (u * 2 ^ 1 : Nat) + 1 = finite (v * 2 ^ q : Nat) := by
  have htop : 2 ≤ topPlace := by rw [topPlace_eq]; decide
  rw [finite_add_one]
  by_cases hcarry : u + 1 < 2 ^ 53
  · have hnext : Normal (u + 1) 1 := ⟨by have := h.least; omega, hcarry, h.pos, h.inRange⟩
    have hleast := h.least
    exact ⟨u + 1, 1, hnext, .inl (by omega),
      hnext.round_of_near (by omega) (by omega) (by omega) (.inl (by omega))⟩
  · -- All bits are set, so the next number has one bit more.
    have hall : u = 2 ^ 53 - 1 := by have := h.most; omega
    refine ⟨2 ^ 52, 2, ⟨Nat.le_refl _, by decide, by decide, htop⟩, .inr (Nat.le_refl _), ?_⟩
    rw [hall]
    exact round_below_power (k := 1) htop (by decide) (by decide)

/-- From `2 ^ 53` on, the second step of counting leads nowhere. -/
theorem Normal.add_one_add_one (h : Normal u p) :
    finite (u * 2 ^ p : Nat) + 1 + 1 = finite (u * 2 ^ p : Nat) + 1 := by
  by_cases hstays : u % 2 = 0 ∨ 2 ≤ p
  · rw [h.add_one hstays, h.add_one hstays]
  · obtain rfl : p = 1 := by have := h.pos; omega
    obtain ⟨v, q, hnext, hstays', hsucc⟩ := h.exists_add_one_eq (by omega)
    rw [hsucc, hnext.add_one hstays']

/-- From `2 ^ 53` on a natural number is rounded to one of 53 bits with zeros behind them, or to
infinity. -/
theorem exists_normal_of_le (h : exactBound ≤ n) :
    (∃ u p, Normal u p ∧ ofNat n = finite (u * 2 ^ p : Nat)) ∨ ofNat n = infinite false := by
  rcases Nat.eq_or_lt_of_le h with rfl | hbeyond
  · obtain ⟨u, p, hnormal, heq⟩ := exists_normal h (valid_ofNat h)
    exact .inl ⟨u, p, hnormal, by rw [ofNat_eq_finite h, ← heq]⟩
  · have hround : ofNat n = round n := rfl
    have hbits := le_log2 hbeyond
    obtain ⟨hleast, hmost⟩ := units_bounds hbeyond
    rw [hround, round_natCast hbeyond]
    split
    · exact .inr rfl
    next hfinite =>
      rw [Nat.not_le] at hfinite
      refine .inl ?_
      rcases Nat.lt_or_eq_of_le hmost with hlt | hcarry
      · have hrange : 2 ^ (n.log2 - 52) < 2 ^ (topPlace + 1) := by
          have hpow : 2 ^ 53 * 2 ^ topPlace = 2 ^ 52 * 2 ^ (topPlace + 1) := by
            rw [Nat.pow_succ 2 topPlace]
            omega
          rw [hpow] at hfinite
          exact Nat.lt_of_mul_lt_mul_left
            (Nat.lt_of_le_of_lt (Nat.mul_le_mul_right _ hleast) hfinite)
        have hplace := (Nat.pow_lt_pow_iff_right (by decide)).mp hrange
        exact ⟨units n, n.log2 - 52, ⟨hleast, hlt, by omega, by omega⟩, rfl⟩
      · -- With `2 ^ 53` units the number has one bit more.
        rw [hcarry] at hfinite ⊢
        have hplace := (Nat.pow_lt_pow_iff_right (by decide)).mp (Nat.lt_of_mul_lt_mul_left hfinite)
        refine ⟨2 ^ 52, n.log2 - 52 + 1, ⟨Nat.le_refl _, by decide, by omega, by omega⟩, ?_⟩
        rw [Nat.pow_succ 2 (n.log2 - 52)]
        congr 2
        omega

/-- Behind a number that is written with digits, counting is exact, or it leads nowhere. -/
theorem digitsNumber_add_one_cases (cs : List Char) :
    (∃ n < exactBound, digitsNumber cs + 1 = ofNat n) ∨
      digitsNumber cs + 1 + 1 = digitsNumber cs + 1 := by
  have hinfinite : infinite false + 1 = infinite false := by
    have hone : (1 : Binary64) = finite (1 : Nat) := ofNat_eq_finite (by decide)
    rw [hone]
    rfl
  rw [digitsNumber_eq]
  split
  · exact .inr (by rw [hinfinite, hinfinite])
  · by_cases hsmall : digitsValue cs + 1 < exactBound
    · exact .inl ⟨digitsValue cs + 1, hsmall, ofNat_add_one (by omega)⟩
    · refine .inr ?_
      by_cases hlast : digitsValue cs + 1 = exactBound
      · have hstalls : ofNat exactBound + 1 = ofNat exactBound := by decide +kernel
        rw [ofNat_add_one (by omega), hlast, hstalls]
      · rcases exists_normal_of_le (n := digitsValue cs) (by omega) with ⟨u, p, hnormal, heq⟩ | heq
        · rw [heq, hnormal.add_one_add_one]
        · rw [heq, hinfinite, hinfinite]

end Flipbook.Binary64
