import Mathlib.Tactic.Positivity
import Mathlib.Tactic.Ring
import Flipbook.Proofs.Number.Whole

/-!
# The digits of great whole numbers

A whole number from `2 ^ 53` on is written with the shortest digits that read back as the same
number, filled up with zeros. Below `10 ^ 21` its text consists of digits, and from there on it has
an exponent.

## Main definitions

* `Binary64.Normal`: the bits of a whole number.
* `Shortest.Interval.ofUnits`: the interval of a whole number.
* `Shortest.Interval.Holds`: the natural numbers in such an interval.

## Main results

* `Shortest.Interval.round_of_holds`: these are rounded to the number;
* `Shortest.exists_search_natCast`: the digits that are found make, with zeros behind them, one of
  these;
* `Binary64.text_of_lt`, `Binary64.text_of_le`: the text of a whole number.
-/

namespace Flipbook

namespace Binary64

/-- A quotient is rounded to the number that it is nearest to, or in the middle to the even one. -/
theorem roundDiv_eq {n d u : Nat} (hlow : 2 * (u * d) ≤ 2 * n + d) (hhigh : 2 * n ≤ 2 * (u * d) + d)
    (htie : u % 2 = 0 ∨ 2 * (u * d) < 2 * n + d ∧ 2 * n < 2 * (u * d) + d) (hpos : 0 < d) :
    roundDiv n d = u := by
  have hsplit := Nat.div_add_mod n d
  have hrest := Nat.mod_lt n hpos
  rw [roundDiv]
  by_cases hless : n < u * d
  · obtain ⟨v, rfl⟩ : ∃ v, u = v + 1 := Nat.exists_eq_succ_of_ne_zero (by rintro rfl; simp at hless)
    have hmul : (v + 1) * d = v * d + d := Nat.succ_mul v d
    rw [hmul] at hlow hhigh htie hless
    have hquotient : n / d = v := by
      rw [Nat.div_eq_iff hpos]
      omega
    rw [hquotient, Nat.mul_comm] at hsplit
    -- A tie would be with an odd quotient, and goes up.
    rw [hquotient, if_pos (by omega)]
  · have hquotient : n / d = u := by
      rw [Nat.div_eq_iff hpos]
      omega
    rw [hquotient, Nat.mul_comm] at hsplit
    rw [hquotient, if_neg (by omega)]

/-- What a number beyond `2 ^ 53` is rounded to, by its binary exponent. -/
theorem round_eq_of_roundDiv {n k v : Nat} (h : exactBound < n) (hbits : n.log2 = k + 52)
    (hunits : roundDiv n (2 ^ k) = v) (hfinite : v * 2 ^ k < 2 ^ 53 * 2 ^ topPlace) :
    round n = finite (v * 2 ^ k : Nat) := by
  rw [round_natCast h, units, hbits, Nat.add_sub_cancel, hunits, if_neg (Nat.not_le.mpr hfinite)]

/-- The binary exponent of a number between two powers of two. -/
theorem log2_eq_of_bounds {n k : Nat} (hlow : 2 ^ 52 * 2 ^ k ≤ n) (hhigh : n < 2 ^ 53 * 2 ^ k) :
    n.log2 = k + 52 := by
  have hunit := Nat.two_pow_pos k
  rw [Nat.log2_eq_iff (by omega), Nat.add_comm k, Nat.pow_add, Nat.add_right_comm, Nat.pow_add]
  exact ⟨hlow, hhigh⟩

/-- A whole number of 53 bits, the first of which is set, with `p` zeros behind them. These are the
finite whole numbers of the format from `2 ^ 53` on. -/
structure Normal (u p : Nat) : Prop where
  least : 2 ^ 52 ≤ u
  most : u < 2 ^ 53
  pos : 0 < p
  /-- The last place is one that finite numbers have. -/
  inRange : p ≤ topPlace

/-- The binary exponent of such a number. -/
theorem Normal.log2_value {u p : Nat} (h : Normal u p) : (u * 2 ^ p).log2 = p + 52 :=
  log2_eq_of_bounds (Nat.mul_le_mul_right _ h.least)
    (Nat.mul_lt_mul_of_pos_right h.most (Nat.two_pow_pos p))

/-- There is room for one unit more. -/
theorem Normal.value_add_le {u p : Nat} (h : Normal u p) :
    u * 2 ^ p + 2 ^ p ≤ 2 ^ 53 * 2 ^ p := by
  rw [← Nat.succ_mul]
  exact Nat.mul_le_mul_right _ h.most

/-- What is nearest to a power of two, but below it, is rounded up to it. -/
theorem round_below_power {n k : Nat} (hk : k < topPlace)
    (hlow : 2 * (2 ^ 53 * 2 ^ k) ≤ 2 * n + 2 ^ k) (hhigh : n < 2 ^ 53 * 2 ^ k) :
    round n = finite (2 ^ 53 * 2 ^ k : Nat) := by
  have hunit := Nat.two_pow_pos k
  have htop : 2 ^ 53 * 2 ^ k < 2 ^ 53 * 2 ^ topPlace :=
    Nat.mul_lt_mul_of_pos_left (Nat.pow_lt_pow_right (by decide) hk) (Nat.two_pow_pos 53)
  have hunits : roundDiv n (2 ^ k) = 2 ^ 53 :=
    roundDiv_eq hlow (by omega) (.inl (by decide)) hunit
  refine round_eq_of_roundDiv ?_ (log2_eq_of_bounds (by omega) hhigh) hunits htop
  -- There is no room below `2 ^ 53` itself.
  have hexact : exactBound = 2 ^ 53 := rfl
  have hne : 2 ^ k ≠ 1 := by
    intro hone
    omega
  omega

/-- What is nearest to a number with the same last place is rounded to it. -/
theorem Normal.round_of_near {u p n : Nat} (h : Normal u p)
    (hsame : 2 ^ 52 * 2 ^ p ≤ n) (hleast : 2 * (u * 2 ^ p) ≤ 2 * n + 2 ^ p)
    (hmost : 2 * n ≤ 2 * (u * 2 ^ p) + 2 ^ p)
    (htie : u % 2 = 0 ∨ 2 * (u * 2 ^ p) < 2 * n + 2 ^ p ∧ 2 * n < 2 * (u * 2 ^ p) + 2 ^ p) :
    round n = finite (u * 2 ^ p : Nat) := by
  have hunit : 2 ≤ 2 ^ p := Nat.le_self_pow h.pos.ne' 2
  have hnext := h.value_add_le
  have htop : 2 ^ 53 * 2 ^ p ≤ 2 ^ 53 * 2 ^ topPlace :=
    Nat.mul_le_mul_left _ (Nat.pow_le_pow_right (by decide) h.inRange)
  have hexact : exactBound = 2 ^ 53 := rfl
  by_cases hn : n ≤ exactBound
  · -- Only `2 ^ 53` itself is left, which is not rounded.
    have hequal : n = u * 2 ^ p := by
      have htwo : 2 ^ p = 2 := by omega
      rw [htwo] at hsame hleast hmost ⊢
      omega
    rw [← hequal]
    exact round_intCast (n := n) hn
  · exact round_eq_of_roundDiv (by omega) (log2_eq_of_bounds hsame (by omega))
      (roundDiv_eq hleast hmost htie (Nat.two_pow_pos p)) (by omega)

/-- A whole number from `2 ^ 53` on has 53 bits in front of some zeros. -/
theorem exists_normal {s : Nat} (hs : exactBound ≤ s) (hvalid : (finite (s : Rat)).Valid) :
    ∃ u p, Normal u p ∧ s = u * 2 ^ p := by
  by_cases hexact : s = exactBound
  · have htop : 1 ≤ topPlace := by rw [topPlace_eq]; decide
    exact ⟨2 ^ 52, 1, ⟨by decide, by decide, by decide, htop⟩, hexact.trans rfl⟩
  · have hbeyond : exactBound < s := by omega
    have hbits := le_log2 hbeyond
    have hunits := units_bounds hbeyond
    rw [Valid, round_natCast hbeyond] at hvalid
    split at hvalid
    · cases hvalid
    next hfinite =>
      rw [finite.injEq, Rat.natCast_inj] at hvalid
      rw [hvalid, Nat.not_le] at hfinite
      have hlast := log2_sub_le hbeyond hfinite
      refine ⟨units s, s.log2 - 52, ⟨hunits.1, ?_, by omega, hlast⟩, hvalid.symm⟩
      -- With `2 ^ 53` units the number would have one bit more.
      by_contra hcarry
      have hall : units s = 2 ^ 53 := by omega
      have hpow : s = 2 ^ (s.log2 + 1) := by
        rw [show s.log2 + 1 = 53 + (s.log2 - 52) by omega, Nat.pow_add, ← hall, hvalid]
      exact absurd Nat.lt_log2_self (by rw [← hpow]; exact Nat.lt_irrefl s)

end Binary64

namespace Shortest

open Binary64

/-- The interval of the number with the bits `u` and `p` zeros behind them, in quarters of its last
place. -/
def Interval.ofUnits (u p : Nat) : Interval where
  low := if u = 2 ^ 52 then 4 * u - 1 else 4 * u - 2
  value := 4 * u
  high := 4 * u + 2
  place := p - 2
  closed := u % 2 == 0

/-- The natural numbers in the interval of a number with `p` zeros behind its bits. -/
def Interval.Holds (i : Interval) (p n : Nat) : Prop :=
  if i.closed then i.low * 2 ^ p ≤ 4 * n ∧ 4 * n ≤ i.high * 2 ^ p
  else i.low * 2 ^ p < 4 * n ∧ 4 * n < i.high * 2 ^ p

section Units

variable {u p n : Nat} (hnormal : Normal u p)

include hnormal

theorem Interval.ofRat_natCast : Interval.ofRat (u * 2 ^ p : Nat) = Interval.ofUnits u p := by
  have hu := hnormal.least
  have hplace : lastPlace (u * 2 ^ p) 1 = p := by
    rw [lastPlace, log2Div_one (by positivity), hnormal.log2_value]
    omega
  have hunits : u * 2 ^ p * Nat.pow 2 (-(p : Int)).toNat / (1 * Nat.pow 2 (p : Int).toNat) = u := by
    rw [Int.toNat_neg_natCast, Int.toNat_natCast, Nat.pow_eq, Nat.pow_eq, Nat.pow_zero, Nat.mul_one,
      Nat.one_mul, Nat.mul_div_cancel _ (Nat.two_pow_pos p)]
  have hbelow : -1074 < (p : Int) := by omega
  simp only [Interval.ofRat, Rat.num_natCast, Rat.den_natCast, Int.natAbs_natCast, hplace, hunits,
    hbelow, and_true, Interval.ofUnits]
  rfl

/-- The interval of a number reaches half a unit of its last place to both sides, or a quarter below
a power of two. The ends belong to it if the number is even. -/
theorem Interval.holds_iff : (Interval.ofUnits u p).Holds p n ↔
    if u = 2 ^ 52 then 4 * (u * 2 ^ p) ≤ 4 * n + 2 ^ p ∧ 2 * n ≤ 2 * (u * 2 ^ p) + 2 ^ p
    else if u % 2 = 0 then 2 * (u * 2 ^ p) ≤ 2 * n + 2 ^ p ∧ 2 * n ≤ 2 * (u * 2 ^ p) + 2 ^ p
    else 2 * (u * 2 ^ p) < 2 * n + 2 ^ p ∧ 2 * n < 2 * (u * 2 ^ p) + 2 ^ p := by
  have hu := hnormal.least
  have hends (k : Nat) (hk : k ≤ 4 * u) : (4 * u - k) * 2 ^ p + k * 2 ^ p = 4 * (u * 2 ^ p) := by
    rw [← Nat.add_mul, Nat.sub_add_cancel hk, Nat.mul_assoc]
  have hone := hends 1 (by omega)
  have htwo := hends 2 (by omega)
  have hupper : (4 * u + 2) * 2 ^ p = 4 * (u * 2 ^ p) + 2 * 2 ^ p := by
    rw [Nat.add_mul, Nat.mul_assoc]
  simp only [Holds, ofUnits, beq_iff_eq, hupper]
  generalize u * 2 ^ p = value at hone htwo ⊢
  generalize 2 ^ p = unit at hone htwo ⊢
  by_cases hpower : u = 2 ^ 52
  · have heven : u % 2 = 0 := by omega
    simp only [if_pos hpower, if_pos heven]
    omega
  · simp only [if_neg hpower]
    split <;> omega

/-- Whatever is in the interval of a number is rounded to it. -/
theorem Interval.round_of_holds (h : (Interval.ofUnits u p).Holds p n) :
    Binary64.round n = finite (u * 2 ^ p : Nat) := by
  have hu := hnormal.least
  rw [holds_iff hnormal] at h
  split at h
  next hpower =>
    subst hpower
    by_cases hbelow : n < 2 ^ 52 * 2 ^ p
    · -- Below a power of two the numbers lie twice as close.
      obtain ⟨k, rfl⟩ : ∃ k, p = k + 1 := Nat.exists_eq_succ_of_ne_zero hnormal.pos.ne'
      have hhalf : 2 ^ (k + 1) = 2 * 2 ^ k := Nat.pow_succ'
      have hvalue : 2 ^ 52 * 2 ^ (k + 1) = 2 ^ 53 * 2 ^ k := by
        rw [hhalf]
        omega
      rw [hvalue]
      exact round_below_power hnormal.inRange (by omega) (by omega)
    · exact hnormal.round_of_near (by omega) (by omega) h.2 (.inl (by decide))
  next hpower =>
    have hsame : 2 ^ 52 * 2 ^ p ≤ n := by
      have hnext : (2 ^ 52 + 1) * 2 ^ p ≤ u * 2 ^ p := Nat.mul_le_mul_right _ (by omega)
      rw [Nat.succ_mul] at hnext
      split at h <;> omega
    split at h
    next heven => exact hnormal.round_of_near hsame h.1 h.2 (.inl heven)
    next => exact hnormal.round_of_near hsame h.1.le h.2.le (.inr h)

end Units

section Candidates

variable {u p k t : Nat}

/-- The scales that compare decimals without places behind the point with the ends of an
interval. -/
theorem exists_scales_eq (p k : Nat) :
    ∃ fine coarse, scales (p - 2) k = (10 ^ k * fine, coarse) ∧ 0 < fine ∧
      4 * coarse = 2 ^ p * fine := by
  refine ⟨2 ^ (2 - p), 2 ^ (p - 2), ?_, Nat.two_pow_pos _, ?_⟩
  · have hfine : (-((p : Int) - 2)).toNat = 2 - p := by omega
    have hcoarse : ((p : Int) - 2).toNat = p - 2 := by omega
    rw [scales, hfine, hcoarse]
    simp
  · rw [← Nat.pow_add, show (4 : Nat) = 2 ^ 2 from rfl, ← Nat.pow_add]
    congr 1
    omega

/-- Whether a decimal without places behind the point is in the interval of a whole number. -/
theorem Interval.mem_ofUnits_iff :
    (Interval.ofUnits u p).mem k t = true ↔ (Interval.ofUnits u p).Holds p (t * 10 ^ k) := by
  obtain ⟨fine, coarse, hscales, hfine, hcoarse⟩ := exists_scales_eq p k
  have hbound (m : Nat) : 4 * (m * coarse) = m * 2 ^ p * fine := by
    rw [Nat.mul_left_comm, hcoarse, Nat.mul_assoc]
  have hdecimal : 4 * (t * (10 ^ k * fine)) = 4 * (t * 10 ^ k) * fine := by
    rw [← Nat.mul_assoc t, ← Nat.mul_assoc 4]
  have hle (m : Nat) : m * coarse ≤ t * (10 ^ k * fine) ↔ m * 2 ^ p ≤ 4 * (t * 10 ^ k) := by
    rw [← Nat.mul_le_mul_left_iff (by decide : 0 < 4), hbound, hdecimal,
      Nat.mul_le_mul_right_iff hfine]
  have hge (m : Nat) : t * (10 ^ k * fine) ≤ m * coarse ↔ 4 * (t * 10 ^ k) ≤ m * 2 ^ p := by
    rw [← Nat.mul_le_mul_left_iff (by decide : 0 < 4), hbound, hdecimal,
      Nat.mul_le_mul_right_iff hfine]
  have hplace : (Interval.ofUnits u p).place = p - 2 := rfl
  rw [mem, hplace, hscales, Holds]
  dsimp only
  split
  · rw [decide_eq_true_iff, hle, hge]
  · rw [decide_eq_true_iff, ← Nat.not_le, hge, ← Nat.not_le, hle, Nat.not_le, Nat.not_le]

/-- The lower one of the two decimals that are tried. -/
theorem Interval.candidate_eq :
    (Interval.ofUnits u p).value * (scales (Interval.ofUnits u p).place k).2 /
      (scales (Interval.ofUnits u p).place k).1 = u * 2 ^ p / 10 ^ k := by
  obtain ⟨fine, coarse, hscales, hfine, hcoarse⟩ := exists_scales_eq p k
  have hplace : (Interval.ofUnits u p).place = p - 2 := rfl
  have hvalue : (Interval.ofUnits u p).value * coarse = u * 2 ^ p * fine := by
    show 4 * u * coarse = _
    rw [Nat.mul_right_comm, hcoarse, Nat.mul_right_comm, Nat.mul_comm u]
  rw [hplace, hscales]
  dsimp only
  rw [hvalue, Nat.mul_div_mul_right _ _ hfine]

/-- A decimal that is found is next to the number, and in its interval. -/
theorem Interval.nearest?_eq_some (h : (Interval.ofUnits u p).nearest? k = some t) :
    (t = u * 2 ^ p / 10 ^ k ∨ t = u * 2 ^ p / 10 ^ k + 1) ∧
      (Interval.ofUnits u p).Holds p (t * 10 ^ k) := by
  rw [nearest?] at h
  dsimp only at h
  rw [candidate_eq] at h
  split at h
  next hlow hhigh =>
    rw [mem_ofUnits_iff] at hlow hhigh
    obtain rfl := Option.some.inj h
    split
    · exact ⟨.inr rfl, hhigh⟩
    · exact ⟨.inl rfl, hlow⟩
  next hlow _ =>
    obtain rfl := Option.some.inj h
    exact ⟨.inl rfl, mem_ofUnits_iff.mp hlow⟩
  next _ hhigh =>
    obtain rfl := Option.some.inj h
    exact ⟨.inr rfl, mem_ofUnits_iff.mp hhigh⟩
  next => cases h

/-- A decimal is found if one next to the number is in its interval. -/
theorem Interval.nearest?_ne_none
    (h : (Interval.ofUnits u p).Holds p (u * 2 ^ p / 10 ^ k * 10 ^ k) ∨
      (Interval.ofUnits u p).Holds p ((u * 2 ^ p / 10 ^ k + 1) * 10 ^ k)) :
    (Interval.ofUnits u p).nearest? k ≠ none := by
  rw [← mem_ofUnits_iff, ← mem_ofUnits_iff] at h
  rw [nearest?]
  dsimp only
  rw [candidate_eq]
  split <;> simp_all

/-- One of the decimals next to a number is in its interval, if they are not too far apart. -/
theorem Interval.holds_next (hnormal : Normal u p)
    (hk : k = 0 ∨ 10 ^ 16 * 10 ^ k ≤ u * 2 ^ p) :
    (Interval.ofUnits u p).Holds p (u * 2 ^ p / 10 ^ k * 10 ^ k) ∨
      (Interval.ofUnits u p).Holds p ((u * 2 ^ p / 10 ^ k + 1) * 10 ^ k) := by
  have hunit := Nat.two_pow_pos p
  have hnext := hnormal.value_add_le
  simp only [holds_iff hnormal]
  rcases hk with rfl | hk
  · refine .inl ?_
    rw [Nat.pow_zero, Nat.div_one, Nat.mul_one]
    split
    · omega
    split <;> omega
  · -- As `2 ^ 53` is less than `10 ^ 16`, decimals of 17 digits lie closer than the numbers do: less
    -- than one unit of the last place apart, and half a unit at a power of two.
    have hten : 0 < 10 ^ k := Nat.pow_pos (by decide)
    have hbelow : u * 2 ^ p / 10 ^ k * 10 ^ k ≤ u * 2 ^ p := Nat.div_mul_le_self _ _
    have habove : u * 2 ^ p < u * 2 ^ p / 10 ^ k * 10 ^ k + 10 ^ k := Nat.lt_div_mul_add hten
    have hsucc : (u * 2 ^ p / 10 ^ k + 1) * 10 ^ k = u * 2 ^ p / 10 ^ k * 10 ^ k + 10 ^ k :=
      Nat.succ_mul _ _
    rw [hsucc]
    generalize u * 2 ^ p / 10 ^ k * 10 ^ k = below at hbelow habove ⊢
    by_cases hpower : u = 2 ^ 52
    · subst hpower
      refine .inr ?_
      rw [if_pos rfl]
      omega
    · simp only [if_neg hpower]
      by_cases hnear : 2 * (u * 2 ^ p) < 2 * below + 2 ^ p
      · refine .inl ?_
        split <;> omega
      · refine .inr ?_
        split <;> omega

end Candidates

section Search

/-- The search ends with the first count of digits for which a decimal is found. -/
theorem exists_search_eq {i : Interval} {point : Int} {c : Nat} (fuel count : Nat)
    (hlow : count ≤ c) (hhigh : c < count + fuel) (h : i.nearest? (point - c) ≠ none) :
    ∃ d, count ≤ d ∧ d ≤ c ∧ i.nearest? (point - d) = some (search i point fuel count).1 ∧
      (search i point fuel count).2 = point - d := by
  induction fuel generalizing count with
  | zero => omega
  | succ fuel ih =>
    rw [search]
    split
    next n hn => exact ⟨count, Nat.le_refl _, hlow, hn, rfl⟩
    next hnone =>
      have hne : count ≠ c := by
        rintro rfl
        exact h hnone
      obtain ⟨d, hleast, hmost, hfound⟩ := ih (count + 1) (by omega) (by omega)
      exact ⟨d, by omega, hmost, hfound⟩

/-- The factor by which digits are estimated from bits is close enough for all finite numbers. -/
theorem pow_estimate : ∀ e < 1024, 10 ^ (e * 30103 / 100000 - 1) ≤ 2 ^ e ∧
    2 ^ (e + 1) ≤ 10 ^ (e * 30103 / 100000 + 2) := by
  decide +kernel

/-- The position of the point of a natural number is the count of its digits. -/
theorem exists_decimalPoint_eq {s : Nat} (hs : s ≠ 0) (hbits : s.log2 < 1024) :
    ∃ k : Nat, decimalPoint s = (k + 1 : Nat) ∧ 10 ^ k ≤ s ∧ s < 10 ^ (k + 1) := by
  obtain ⟨hleast, hmost⟩ := pow_estimate s.log2 hbits
  have hlow : 2 ^ s.log2 ≤ s := Nat.log2_self_le hs
  have hhigh : s < 2 ^ (s.log2 + 1) := Nat.lt_log2_self
  have hguess : log2Div s 1 * 30103 / 100000 = (s.log2 * 30103 / 100000 : Nat) := by
    rw [log2Div_one hs]
    rfl
  have hbelow (e : Nat) :
      decide (s * Nat.pow 10 (-(e : Int)).toNat < 1 * Nat.pow 10 (e : Int).toNat) =
        decide (s < 10 ^ e) := by
    simp
  -- The guess is the count of digits, or one less, or one more.
  generalize s.log2 * 30103 / 100000 = guess at hleast hmost hguess
  have hnext : (guess : Int) + 1 = (guess + 1 : Nat) := rfl
  simp only [decimalPoint, Rat.num_natCast, Int.natAbs_natCast, Rat.den_natCast, hguess, hnext,
    hbelow, decide_eq_true_eq]
  split
  next hlt =>
    obtain ⟨k, rfl⟩ : ∃ k, guess = k + 1 := by
      refine Nat.exists_eq_succ_of_ne_zero ?_
      rintro rfl
      omega
    exact ⟨k, rfl, hleast.trans hlow, hlt⟩
  split
  next hge hlt => exact ⟨guess, rfl, Nat.not_lt.mp hge, hlt⟩
  next hge => exact ⟨guess + 1, rfl, Nat.not_lt.mp hge, hhigh.trans_le hmost⟩

/-- The decimals next to a number have as many digits as the number, or are the next power of
ten. -/
theorem decimal_bounds {s t k point : Nat} (hk : k ≤ point) (hleast : 10 ^ point ≤ s)
    (hmost : s < 10 ^ (point + 1)) (ht : t = s / 10 ^ k ∨ t = s / 10 ^ k + 1) :
    10 ^ point ≤ t * 10 ^ k ∧ t * 10 ^ k ≤ 10 ^ (point + 1) := by
  have hten : 0 < 10 ^ k := Nat.pow_pos (by decide)
  have hlow : 10 ^ (point - k) * 10 ^ k = 10 ^ point := by
    rw [← Nat.pow_add, Nat.sub_add_cancel hk]
  have hhigh : 10 ^ (point + 1 - k) * 10 ^ k = 10 ^ (point + 1) := by
    rw [← Nat.pow_add, Nat.sub_add_cancel (by omega)]
  have hdivLow : 10 ^ (point - k) ≤ s / 10 ^ k := (Nat.le_div_iff_mul_le hten).mpr (by omega)
  have hdivHigh : s / 10 ^ k < 10 ^ (point + 1 - k) := (Nat.div_lt_iff_lt_mul hten).mpr (by omega)
  rw [← hlow, ← hhigh]
  exact ⟨Nat.mul_le_mul_right _ (by omega), Nat.mul_le_mul_right _ (by omega)⟩

/-- What the search finds for a whole number: digits that have, with some zeros behind them, a value
in the interval of the number, and as many places as the number. -/
theorem exists_search_natCast {u p : Nat} (hnormal : Normal u p) :
    ∃ t k point : Nat,
      search (Interval.ofRat (u * 2 ^ p : Nat)) (decimalPoint (u * 2 ^ p : Nat)) 17 1 =
        (t, (k : Int)) ∧
      k ≤ point ∧ (Interval.ofUnits u p).Holds p (t * 10 ^ k) ∧
      (10 ^ point ≤ u * 2 ^ p ∧ u * 2 ^ p < 10 ^ (point + 1)) ∧
      10 ^ point ≤ t * 10 ^ k ∧ t * 10 ^ k ≤ 10 ^ (point + 1) := by
  have hlog := hnormal.log2_value
  have hu := hnormal.least
  have hfinite := hnormal.inRange
  have htop := topPlace_eq
  obtain ⟨point, hpoint, hleast, hmost⟩ := exists_decimalPoint_eq (s := u * 2 ^ p) (by positivity)
    (by omega)
  rw [Interval.ofRat_natCast hnormal, hpoint]
  generalize hc : min 17 (point + 1) = c
  -- With 17 digits, or all of them, one of the decimals next to the number is in the interval.
  have hnext : (Interval.ofUnits u p).nearest? ((point + 1 : Nat) - (c : Int)) ≠ none := by
    have hunit : ((point + 1 : Nat) - (c : Int)) = (point + 1 - c : Nat) := by omega
    rw [hunit]
    refine Interval.nearest?_ne_none (Interval.holds_next hnormal ?_)
    by_cases hshort : point + 1 ≤ 17
    · exact .inl (by omega)
    · refine .inr ?_
      rw [← Nat.pow_add, show 16 + (point + 1 - c) = point by omega]
      exact hleast
  obtain ⟨d, hone, hd, hfound, hunit⟩ := exists_search_eq 17 1 (by omega) (by omega)
    hnext
  have hplaces : ((point + 1 : Nat) - (d : Int)) = (point + 1 - d : Nat) := by omega
  rw [hplaces] at hfound hunit
  obtain ⟨ht, hholds⟩ := Interval.nearest?_eq_some hfound
  have hk : point + 1 - d ≤ point := by omega
  exact ⟨_, point + 1 - d, point, Prod.ext rfl hunit, hk, hholds, ⟨hleast, hmost⟩,
    decimal_bounds hk hleast hmost ht⟩

end Search

end Shortest

/-- Zeros behind digits multiply what they stand for. -/
theorem digitsValue_append_zeros (cs : List Char) (k : Nat) :
    digitsValue (cs ++ List.replicate k '0') = digitsValue cs * 10 ^ k := by
  induction k with
  | zero => simp
  | succ k ih =>
    rw [List.replicate_succ', ← List.append_assoc, digitsValue, List.foldl_concat]
    show 10 * digitsValue (cs ++ List.replicate k '0') + 0 = _
    rw [ih, Nat.pow_succ]
    ring

/-- What is left out at the end of digits are zeros. -/
theorem trimmed_append_zeros (cs : List Char) :
    (cs.reverse.dropWhile (· == '0')).reverse ++ List.replicate
      (cs.length - (cs.reverse.dropWhile (· == '0')).reverse.length) '0' = cs := by
  have hsplit := congrArg List.reverse (cs.reverse.takeWhile_append_dropWhile (p := (· == '0')))
  rw [List.reverse_append, List.reverse_reverse] at hsplit
  have hzeros : (cs.reverse.takeWhile (· == '0')).reverse =
      List.replicate (cs.reverse.takeWhile (· == '0')).length '0' := by
    refine List.eq_replicate_of_mem ?_ |>.trans (by rw [List.length_reverse])
    intro c hc
    simpa using List.all_eq_true.mp List.all_takeWhile c (List.mem_reverse.mp hc)
  rw [hzeros] at hsplit
  have hlength := congrArg List.length hsplit
  rw [List.length_append, List.length_replicate] at hlength
  rw [← hlength, Nat.add_sub_cancel_left, hsplit]

namespace NumberLayout

/-- Digits whose point is not behind the 21st place are filled up with zeros to their point. -/
theorem arrange_of_le {d : DecimalDigits} (hcount : d.digits.length ≤ d.point)
    (hpoint : d.point ≤ 21) :
    (standard.arrange d).toList =
      d.digits ++ List.replicate (d.point.toNat - d.digits.length) '0' := by
  have hgreatest : standard.greatest = 21 := rfl
  have hzeros : (d.point - d.digits.length).toNat = d.point.toNat - d.digits.length := by omega
  rw [arrange, hgreatest, if_pos ⟨hcount, hpoint⟩, hzeros, String.toList_append,
    String.toList_ofList, String.toList_ofList]

/-- Digits whose point is behind the 21st place get an exponent, which ends in a sign and digits. -/
theorem arrange_of_lt {d : DecimalDigits} (hpoint : 21 < d.point) :
    ∃ front, (standard.arrange d).toList =
      front ++ '+' :: Nat.toDigits 10 (d.point - 1).natAbs := by
  have hgreatest : standard.greatest = 21 := rfl
  have hexponent : (exponentText (d.point - 1)).toList =
      ['e'] ++ '+' :: Nat.toDigits 10 (d.point - 1).natAbs := by
    rw [exponentText, if_neg (by omega)]
    show ("e+" ++ toString (d.point - 1).natAbs).toList = _
    rw [String.toList_append, Nat.toString_eq_repr, Nat.toList_repr]
    rfl
  have hbefore (front : String) : ∃ rest, (front ++ exponentText (d.point - 1)).toList =
      rest ++ '+' :: Nat.toDigits 10 (d.point - 1).natAbs :=
    ⟨front.toList ++ ['e'], by rw [String.toList_append, hexponent, List.append_assoc]⟩
  rw [arrange, hgreatest, if_neg (by omega), if_neg (by omega), if_neg (by omega)]
  split
  · exact hbefore _
  · exact hbefore _
  · exact ⟨_, hexponent⟩

end NumberLayout

namespace Shortest

variable {q : Rat} {t k : Nat}

/-- The position of the point behind digits that are found, with some zeros behind them. -/
theorem point_ofRat (h : search (Interval.ofRat q) (decimalPoint q) 17 1 = (t, (k : Int))) :
    (ofRat q).point = ((Nat.toDigits 10 t).length + k : Nat) := by
  rw [ofRat, h]
  rfl

/-- Digits that are found are written with all their zeros, if they need no exponent. -/
theorem arrange_ofRat (h : search (Interval.ofRat q) (decimalPoint q) 17 1 = (t, (k : Int)))
    (hlength : (Nat.toDigits 10 t).length + k ≤ 21) :
    (NumberLayout.standard.arrange (ofRat q)).toList =
      Nat.toDigits 10 t ++ List.replicate k '0' := by
  have hpoint := point_ofRat h
  have hdigits : (ofRat q).digits =
      ((Nat.toDigits 10 t).reverse.dropWhile (· == '0')).reverse := by
    rw [ofRat, h]
  have htrimmed := trimmed_append_zeros (Nat.toDigits 10 t)
  rw [← hdigits] at htrimmed
  have hcount : (ofRat q).digits.length ≤ (Nat.toDigits 10 t).length := by
    rw [← htrimmed, List.length_append]
    exact Nat.le_add_right _ _
  rw [NumberLayout.arrange_of_le (by omega) (by omega), hpoint, Int.toNat_natCast,
    Nat.sub_add_comm hcount, List.replicate_add, ← List.append_assoc, htrimmed]

end Shortest

namespace Binary64

variable {s : Nat}

/-- The text of a whole number from `2 ^ 53` on. -/
theorem text_natCast (h : exactBound ≤ s) :
    (finite (s : Rat)).text = NumberLayout.standard.arrange (Shortest.ofRat s) := by
  rw [text, if_neg, if_neg]
  · rw [Rat.num_natCast]
    omega
  · rw [Rat.num_natCast, Int.natAbs_natCast]
    omega

/-- Whole numbers below `10 ^ 21` are written with digits that are read as the number. -/
theorem text_of_lt (hvalid : (finite (s : Rat)).Valid) (hs : s < 10 ^ 21) :
    (finite (s : Rat)).text.toList ≠ [] ∧ (∀ c ∈ (finite (s : Rat)).text.toList, c.isDigit = true) ∧
      digitsNumber (finite (s : Rat)).text.toList = finite s := by
  by_cases hexact : s < exactBound
  · have htext := text_ofNat hexact
    rw [ofNat_eq_finite hexact.le] at htext
    rw [htext, digitsNumber_digits hexact.le, ofNat_eq_finite hexact.le]
    exact ⟨Nat.toDigits_ne_nil,
      fun c hc => Nat.isDigit_of_mem_toDigits (by decide) (by decide) hc, rfl⟩
  · rw [text_natCast (Nat.not_lt.mp hexact)]
    obtain ⟨u, p, hnormal, rfl⟩ := exists_normal (Nat.not_lt.mp hexact) hvalid
    obtain ⟨t, k, point, hfound, hk, hholds, ⟨hleast, -⟩, -, hmost⟩ :=
      Shortest.exists_search_natCast hnormal
    have hround := Shortest.Interval.round_of_holds hnormal hholds
    have hpoint : point < 21 := (Nat.pow_lt_pow_iff_right (by decide)).mp (hleast.trans_lt hs)
    have hless : t * 10 ^ k < 10 ^ 21 := by
      -- The power of ten is a number of its own, and does not round to a smaller one.
      refine Nat.lt_of_le_of_ne (hmost.trans (Nat.pow_le_pow_right (by decide) hpoint)) ?_
      intro hequal
      have hpower : round (10 ^ 21 : Nat) = finite (10 ^ 21 : Nat) := by decide +kernel
      rw [hequal, hpower, finite.injEq, Rat.natCast_inj] at hround
      omega
    have hdigits : (Nat.toDigits 10 t).length ≤ 21 - k := by
      refine decimals_le (by omega) (Nat.lt_of_mul_lt_mul_right (a := 10 ^ k) ?_)
      rwa [← Nat.pow_add, Nat.sub_add_cancel (by omega)]
    rw [Shortest.arrange_ofRat hfound (by omega)]
    refine ⟨by simp [Nat.toDigits_ne_nil], ?_, ?_⟩
    · rw [List.forall_mem_append]
      refine ⟨fun c hc => Nat.isDigit_of_mem_toDigits (by decide) (by decide) hc, fun c hc => ?_⟩
      rw [List.eq_of_mem_replicate hc]
      decide
    · have hvalue : digitsValue (Nat.toDigits 10 t ++ List.replicate k '0') = t * 10 ^ k := by
        rw [digitsValue_append_zeros, digitsValue_toDigits]
      have hshort : (Nat.toDigits 10 (t * 10 ^ k)).length ≤ 21 := decimals_le (by decide) hless
      rw [digitsNumber_eq, hvalue, if_neg (by omega), ← hround]
      rfl

/-- Whole numbers from `10 ^ 21` on are written with an exponent. -/
theorem text_of_le (hvalid : (finite (s : Rat)).Valid) (hs : 10 ^ 21 ≤ s) :
    ∃ front n, (finite (s : Rat)).text.toList = front ++ '+' :: Nat.toDigits 10 n := by
  have hexact : exactBound ≤ s := Nat.le_trans (by decide) hs
  rw [text_natCast hexact]
  obtain ⟨u, p, hnormal, rfl⟩ := exists_normal hexact hvalid
  obtain ⟨t, k, point, hfound, -, -, ⟨-, hmost⟩, hleast, -⟩ :=
    Shortest.exists_search_natCast hnormal
  have hpoint : 21 < point + 1 := (Nat.pow_lt_pow_iff_right (by decide)).mp (hs.trans_lt hmost)
  have hlength : 21 < (Nat.toDigits 10 t).length + k := by
    refine (Nat.pow_lt_pow_iff_right (a := 10) (by decide)).mp ?_
    calc 10 ^ 21 ≤ 10 ^ point := Nat.pow_le_pow_right (by decide) (by omega)
      _ ≤ t * 10 ^ k := hleast
      _ < 10 ^ (Nat.toDigits 10 t).length * 10 ^ k :=
        Nat.mul_lt_mul_of_pos_right (lt_pow_decimals t) (Nat.pow_pos (by decide))
      _ = 10 ^ ((Nat.toDigits 10 t).length + k) := (Nat.pow_add ..).symm
  obtain ⟨front, hfront⟩ := NumberLayout.arrange_of_lt (d := Shortest.ofRat (u * 2 ^ p : Nat))
    (by rw [Shortest.point_ofRat hfound]; exact_mod_cast hlength)
  exact ⟨front, _, hfront⟩

end Binary64

end Flipbook
