import Mathlib.Data.List.Basic
import Flipbook.Archive.Naming

/-!
# Natural numbers among the double-precision numbers

Natural numbers up to `2 ^ 53` are numbers of the format. On them arithmetic is exact, and their
texts are their decimal digits, which read back as the same number.

## Main results

* `ofNat_add_one`, `ofNat_sub_one`, `lt_ofNat`, `le_ofNat`, `same_ofNat`: counting and comparing;
* `text_ofNat`, `digitsNumber_digits`: writing and reading.
-/

namespace Flipbook.Binary64

/-- An integer of at most 53 bits is its own nearest number. -/
theorem round_intCast {n : Int} (h : n.natAbs ≤ exactBound) : round n = finite n := by
  simp [round, h]

/-- A natural number up to `2 ^ 53` is its own nearest number. -/
theorem ofNat_eq_finite {n : Nat} (h : n ≤ exactBound) : ofNat n = finite n :=
  round_intCast (n := n) h

/-- Natural numbers up to `2 ^ 53` are told apart. -/
theorem ofNat_inj {m n : Nat} (hm : m ≤ exactBound) (hn : n ≤ exactBound) :
    ofNat m = ofNat n ↔ m = n := by
  rw [ofNat_eq_finite hm, ofNat_eq_finite hn, finite.injEq, Rat.natCast_inj]

/-- A sum of natural numbers is exact up to `2 ^ 53`. -/
theorem ofNat_add {m n : Nat} (h : m + n ≤ exactBound) : ofNat m + ofNat n = ofNat (m + n) := by
  rw [ofNat_eq_finite (n := m) (by omega), ofNat_eq_finite (n := n) (by omega)]
  show round (m + n) = ofNat (m + n)
  rw [ofNat, ofInt, Int.natCast_add, Rat.intCast_add]
  rfl

/-- Counting up is exact below `2 ^ 53`. -/
theorem ofNat_add_one {n : Nat} (h : n < exactBound) : ofNat n + 1 = ofNat (n + 1) :=
  ofNat_add h

/-- Counting down is exact up to `2 ^ 53`. -/
theorem ofNat_sub_one {n : Nat} (h : n < exactBound) : ofNat (n + 1) - 1 = ofNat n := by
  have hone : ofNat 1 = finite (1 : Nat) := ofNat_eq_finite (by decide)
  rw [ofNat_eq_finite h]
  show (finite (n + 1 : Nat)).sub (ofNat 1) = ofNat n
  rw [hone]
  show round ((n + 1 : Nat) + -(1 : Nat)) = ofNat n
  rw [Rat.natCast_add, Rat.add_assoc, Rat.add_neg_cancel, Rat.add_zero]
  rfl

/-- The order of natural numbers up to `2 ^ 53`. -/
theorem lt_ofNat {m n : Nat} (hm : m ≤ exactBound) (hn : n ≤ exactBound) :
    (ofNat m).lt (ofNat n) = decide (m < n) := by
  rw [ofNat_eq_finite hm, ofNat_eq_finite hn, lt, decide_eq_decide, Rat.natCast_lt_natCast]

/-- Equality of natural numbers up to `2 ^ 53`. -/
theorem same_ofNat {m n : Nat} (hm : m ≤ exactBound) (hn : n ≤ exactBound) :
    (ofNat m).same (ofNat n) = decide (m = n) := by
  have hsame : (ofNat m).same (ofNat n) = decide (ofNat m = ofNat n) := by
    simp only [ofNat_eq_finite hm, same]
  rw [hsame, decide_eq_decide]
  exact ofNat_inj hm hn

/-- The weak order of natural numbers up to `2 ^ 53`. -/
theorem le_ofNat {m n : Nat} (hm : m ≤ exactBound) (hn : n ≤ exactBound) :
    (ofNat m).le (ofNat n) = decide (m ≤ n) := by
  rw [le, lt_ofNat hm hn, same_ofNat hm hn, ← Bool.decide_or, decide_eq_decide]
  omega

/-- The natural number that a natural number is. -/
theorem toNat?_ofNat {n : Nat} (h : n ≤ exactBound) : (ofNat n).toNat? = some n := by
  rw [ofNat_eq_finite h]
  simp [toNat?, toInt?]

/-- A number that is a natural number stands for it. -/
theorem eq_finite_of_toNat? {a : Binary64} {n : Nat} (h : a.toNat? = some n) : a = finite n := by
  obtain ⟨i, hi, hnat⟩ := Option.bind_eq_some_iff.mp h
  cases a with
  | finite q =>
    obtain ⟨hden, rfl⟩ : q.den = 1 ∧ q.num = i := by simpa [toInt?] using hi
    obtain ⟨hnum, rfl⟩ : 0 ≤ q.num ∧ q.num.toNat = n := by simpa using hnat
    rw [finite.injEq, ← Rat.intCast_natCast, Int.toNat_of_nonneg hnum]
    exact Rat.ext rfl hden
  | _ => exact absurd hi (by simp [toInt?])

/-- The only number that is a given natural number. -/
theorem eq_ofNat_of_toNat? {a : Binary64} {n : Nat} (h : a.toNat? = some n) (hn : n ≤ exactBound) :
    a = ofNat n := by
  rw [ofNat_eq_finite hn, eq_finite_of_toNat? h]

/-- A natural number is an integer. -/
theorem isInteger_ofNat {n : Nat} (h : n ≤ exactBound) : (ofNat n).isInteger = true := by
  rw [ofNat_eq_finite h]
  simp [isInteger, toInt?]

/-- A natural number below `2 ^ 53` is written with its decimal digits. -/
theorem text_ofNat {n : Nat} (h : n < exactBound) : (ofNat n).text.toList = Nat.toDigits 10 n := by
  rw [ofNat_eq_finite (Nat.le_of_lt h)]
  have hrepr : toString (n : Int) = n.repr := rfl
  simp [text, h, hrepr]

end Flipbook.Binary64

namespace Flipbook

/-- The value of digits is what core reads them as. -/
theorem digitsValue_eq_ofDigitChars (cs : List Char) :
    digitsValue cs = Nat.ofDigitChars 10 cs 0 := by
  rw [Nat.ofDigitChars_eq_foldl]
  rfl

/-- The decimal digits of a number stand for it. -/
theorem digitsValue_toDigits (n : Nat) : digitsValue (Nat.toDigits 10 n) = n := by
  rw [digitsValue_eq_ofDigitChars, Nat.ofDigitChars_ten_toDigits]

/-- Zeros in front do not change what digits stand for. -/
theorem digitsValue_replicate_append (k : Nat) (cs : List Char) :
    digitsValue (List.replicate k '0' ++ cs) = digitsValue cs := by
  induction k with
  | zero => rfl
  | succ k ih => exact ih

/-- Digits are read as the nearest number of the format, or as infinity if there are too many of
them. -/
theorem digitsNumber_eq (cs : List Char) : digitsNumber cs =
    if 310 < (Nat.toDigits 10 (digitsValue cs)).length then .infinite false
    else .ofNat (digitsValue cs) := by
  rw [digitsNumber, Decimal.toBinary64, if_neg Bool.false_ne_true, Decimal.magnitude]
  by_cases hzero : digitsValue cs = 0
  · simp [hzero]
    rfl
  · rw [if_neg (by simp only; omega)]
    simp only [Int.add_zero, Int.toNat_zero, Int.neg_zero, Nat.pow_eq, Nat.pow_zero, Nat.mul_one,
      Rat.mkRat_one]
    split <;> split
    · rfl
    · omega
    · omega
    · rfl

/-- Digits whose value is at most `2 ^ 53` are read exactly. -/
theorem digitsNumber_eq_ofNat {cs : List Char} (h : digitsValue cs ≤ Binary64.exactBound) :
    digitsNumber cs = .ofNat (digitsValue cs) := by
  have hlength : (Nat.toDigits 10 (digitsValue cs)).length ≤ 16 := by
    rw [Nat.length_toDigits_le_iff (by decide) (by decide)]
    exact Nat.lt_of_le_of_lt h (by decide)
  rw [digitsNumber_eq, if_neg (by omega)]

/-- The decimal digits of a natural number up to `2 ^ 53` are read as that number. -/
theorem digitsNumber_digits {n : Nat} (h : n ≤ Binary64.exactBound) :
    digitsNumber (Nat.toDigits 10 n) = .ofNat n := by
  have hvalue := digitsValue_toDigits n
  rw [digitsNumber_eq_ofNat (by rw [hvalue]; exact h), hvalue]

end Flipbook
