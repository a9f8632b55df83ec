import Flipbook.Proofs.Number.Whole

/-!
# The order of natural numbers among the double-precision numbers

Beyond `2 ^ 53` natural numbers are rounded, and from `2 ^ 1024` on to infinity, but none of them
falls below `2 ^ 53`. So a natural number up to there is compared with any other one as it is.

## Main results

* `le_trans`: the weak order is transitive, whatever has a place in it;
* `ofNat_le_iff`, `le_ofNat_iff`: comparing with a natural number of at most 53 bits;
* `exists_digitsNumber_add_one`: the number behind one that is written with digits.
-/

namespace Flipbook.Binary64

section Order

variable {a b c : Binary64} {m n : Nat} {p q : Rat} {s t : Bool}

theorem finite_le_finite : (finite p).le (finite q) = decide (p ≤ q) := by
  simp [le, lt, same, Rat.le_iff_lt_or_eq]

theorem finite_lt_finite : finite p < finite q ↔ p < q :=
  decide_eq_true_iff

theorem finite_le_infinite : (finite p).le (infinite s) = !s := by
  simp [le, lt, same]

theorem infinite_le_finite : (infinite s).le (finite q) = s := by
  simp [le, lt, same]

theorem infinite_le_infinite : (infinite s).le (infinite t) = (s || !t) := by
  cases s <;> cases t <;> rfl

theorem nan_le : nan.le b = false := by
  simp [le, lt, same]

theorem le_nan : a.le nan = false := by
  cases a <;> simp [le, lt, same]

/-- An integer is the value of its numerator. -/
theorem exists_eq_finite_of_isInteger (h : a.isInteger = true) : ∃ n : Int, a = finite n := by
  cases a with
  | finite q =>
    have hden : q.den = 1 := by simpa [isInteger, toInt?] using h
    exact ⟨q.num, congrArg finite (Rat.ext rfl hden)⟩
  | _ => exact absurd h Bool.false_ne_true

/-- The weak order is transitive. -/
theorem le_trans (hab : a.le b = true) (hbc : b.le c = true) : a.le c = true := by
  -- Between finite numbers this is the order of the rationals, and otherwise a matter of signs.
  cases a <;> cases b <;> cases c <;>
    simp only [finite_le_finite, finite_le_infinite, infinite_le_finite, infinite_le_infinite,
      nan_le, le_nan, decide_eq_true_eq] at hab hbc ⊢ <;>
    grind

/-- What is at most each other is the same number. -/
theorem eq_of_le_of_le (hab : a.le b = true) (hba : b.le a = true) : a = b := by
  cases a <;> cases b <;>
    simp only [finite_le_finite, finite_le_infinite, infinite_le_finite, infinite_le_infinite,
      nan_le, le_nan, decide_eq_true_eq] at hab hba <;>
    grind

/-- A natural number is rounded to a natural number, which is no less if it has at most 53 bits, or
to infinity. -/
theorem ofNat_cases (n : Nat) :
    (∃ m : Nat, ofNat n = finite m ∧ min n exactBound ≤ m) ∨ ofNat n = infinite false := by
  by_cases hexact : n ≤ exactBound
  · exact .inl ⟨n, ofNat_eq_finite hexact, Nat.min_le_left _ _⟩
  · have hbeyond : exactBound < n := Nat.lt_of_not_le hexact
    have hround : ofNat n = round n := rfl
    rw [hround, round_natCast hbeyond]
    split
    · exact .inr rfl
    · exact .inl ⟨_, rfl, Nat.le_trans (Nat.min_le_right _ _) (exactBound_le_rounded hbeyond)⟩

/-- Any natural number is compared as it is with one of at most 53 bits in front of it. -/
theorem ofNat_le_iff (hm : m ≤ exactBound) : (ofNat m).le (ofNat n) = true ↔ m ≤ n := by
  by_cases hn : n ≤ exactBound
  · rw [le_ofNat hm hn, decide_eq_true_eq]
  · refine iff_of_true ?_ (by omega)
    rw [ofNat_eq_finite hm]
    rcases ofNat_cases n with ⟨k, hk, hle⟩ | hinfinite
    · rw [hk, finite_le_finite, decide_eq_true_eq, Rat.natCast_le_natCast]
      omega
    · rw [hinfinite]
      exact finite_le_infinite

/-- So it is with one of at most 53 bits behind it, unless this is `2 ^ 53`. -/
theorem le_ofNat_iff (hn : n < exactBound) : (ofNat m).le (ofNat n) = true ↔ m ≤ n := by
  by_cases hm : m ≤ exactBound
  · exact ofNat_le_iff hm
  · refine iff_of_false ?_ (by omega)
    rw [ofNat_eq_finite (Nat.le_of_lt hn)]
    rcases ofNat_cases m with ⟨k, hk, hle⟩ | hinfinite
    · rw [hk, finite_le_finite, decide_eq_true_eq, Rat.natCast_le_natCast]
      omega
    · rw [hinfinite, infinite_le_finite]
      exact Bool.false_ne_true

theorem ofNat_le_self (n : Nat) : (ofNat n).le (ofNat n) = true := by
  rcases ofNat_cases n with ⟨k, hk, -⟩ | hinfinite
  · rw [hk, finite_le_finite]
    exact decide_eq_true Rat.le_refl
  · rw [hinfinite]
    rfl

/-- There are natural numbers that are rounded to infinity. -/
theorem exists_ofNat_eq_infinite : ∃ n, ofNat n = infinite false := by
  -- A power of two with one bit more than the greatest number has.
  have hlog : (2 ^ (53 + topPlace)).log2 = 53 + topPlace := Nat.log2_two_pow
  have hbeyond : exactBound < 2 ^ (53 + topPlace) := by
    have hplace := topPlace_eq
    exact Nat.pow_lt_pow_right (by decide) (by omega)
  refine ⟨2 ^ (53 + topPlace), ?_⟩
  have hround : ofNat (2 ^ (53 + topPlace)) = round (2 ^ (53 + topPlace) : Nat) := rfl
  rw [hround, round_natCast hbeyond, if_pos]
  have hunits : 2 ^ 52 ≤ units (2 ^ (53 + topPlace)) := (units_bounds hbeyond).1
  rw [hlog, show 53 + topPlace - 52 = topPlace + 1 by omega]
  calc 2 ^ 53 * 2 ^ topPlace = 2 ^ 52 * 2 ^ (topPlace + 1) := by
        rw [Nat.pow_succ 2 topPlace]
        omega
    _ ≤ units (2 ^ (53 + topPlace)) * 2 ^ (topPlace + 1) := Nat.mul_le_mul_right _ hunits

end Order

/-- The number behind one that is written with digits. -/
theorem exists_digitsNumber_add_one (cs : List Char) : ∃ n, digitsNumber cs + 1 = ofNat n := by
  have hone : (1 : Binary64) = finite (1 : Nat) := ofNat_eq_finite (by decide)
  have hinfinite : infinite false + 1 = infinite false := by
    rw [hone]
    rfl
  obtain ⟨most, hmost⟩ := exists_ofNat_eq_infinite
  rw [digitsNumber_eq]
  split
  · exact ⟨most, by rw [hinfinite, hmost]⟩
  · rcases ofNat_cases (digitsValue cs) with ⟨m, hm, -⟩ | hlarge
    · refine ⟨m + 1, ?_⟩
      rw [hm, hone]
      show round (m + (1 : Nat)) = round (m + 1 : Nat)
      rw [Rat.natCast_add]
    · exact ⟨most, by rw [hlarge, hinfinite, hmost]⟩

end Flipbook.Binary64
