import Mathlib.Data.List.Basic
import Flipbook.Number.Text

/-!
# The characters of a number

Whatever a number is, it is written with letters, digits, points and signs only, so that it stays one
word of a line of text.

## Main definitions

* `PlainChar`, `Plain`: the characters of numbers, and texts of them.

## Main results

* `Binary64.plain_text`: the text of a number is plain.
-/

namespace Flipbook

/-- A character of a number: a letter, a digit, a point or a sign. -/
def PlainChar (c : Char) : Prop :=
  c.isAlphanum = true ∨ c = '.' ∨ c = '+' ∨ c = '-'

instance (c : Char) : Decidable (PlainChar c) :=
  inferInstanceAs (Decidable (_ ∨ _))

/-- A text of plain characters. -/
def Plain (text : String) : Prop :=
  ∀ c ∈ text.toList, PlainChar c

instance (text : String) : Decidable (Plain text) :=
  List.decidableBAll PlainChar text.toList

/-- Plain characters belong to ASCII. -/
theorem PlainChar.toNat_lt {c : Char} (h : PlainChar c) : c.toNat < 128 := by
  rcases h with h | rfl | rfl | rfl
  · have hclasses : ((decide ('A'.val ≤ c.val ∧ c.val ≤ 'Z'.val) ||
        (decide ('a'.val ≤ c.val) && decide (c.val ≤ 'z'.val))) ||
        (decide ('0'.val ≤ c.val) && decide (c.val ≤ '9'.val))) = true := h
    simp only [Bool.or_eq_true, Bool.and_eq_true, decide_eq_true_eq,
      UInt32.le_iff_toNat_le] at hclasses
    have hupper : 'Z'.val.toNat = 90 := rfl
    have hlower : 'z'.val.toNat = 122 := rfl
    have hdigit : '9'.val.toNat = 57 := rfl
    show c.val.toNat < 128
    omega
  all_goals decide

/-- Plain texts are put together from plain texts. -/
theorem plain_append {a b : String} (ha : Plain a) (hb : Plain b) : Plain (a ++ b) := by
  rw [Plain, String.toList_append, List.forall_mem_append]
  exact ⟨ha, hb⟩

/-- A text is plain if its characters are. -/
theorem plain_ofList {cs : List Char} (h : ∀ c ∈ cs, PlainChar c) : Plain (String.ofList cs) := by
  rwa [Plain, String.toList_ofList]

/-- A plain character is a plain text. -/
theorem plain_singleton {c : Char} (h : PlainChar c) : Plain (String.singleton c) := by
  rw [String.singleton_eq_ofList]
  refine plain_ofList fun d hd => ?_
  rwa [List.mem_singleton.mp hd]

/-- A digit is plain. -/
theorem plainChar_of_isDigit {c : Char} (h : c.isDigit = true) : PlainChar c := by
  refine .inl ?_
  rw [Char.isAlphanum, h, Bool.or_true]

/-- Decimal digits are plain. -/
theorem plainChar_toDigits (n : Nat) : ∀ c ∈ Nat.toDigits 10 n, PlainChar c :=
  fun _ hc => plainChar_of_isDigit (Nat.isDigit_of_mem_toDigits (by decide) (by decide) hc)

/-- A run of zeros is plain. -/
theorem plain_zeros (k : Nat) : Plain (String.ofList (List.replicate k '0')) := by
  refine plain_ofList fun c hc => ?_
  rw [List.eq_of_mem_replicate hc]
  decide

/-- The text of a natural number is plain. -/
theorem plain_repr (n : Nat) : Plain (toString n) := by
  rw [Plain, Nat.toString_eq_repr, Nat.toList_repr]
  exact plainChar_toDigits n

/-- The text of an integer is plain. -/
theorem plain_toString (n : Int) : Plain (toString n) := by
  cases n with
  | ofNat n => exact plain_repr n
  | negSucc n =>
    show Plain ("-" ++ toString (n + 1))
    exact plain_append (by decide) (plain_repr (n + 1))

/-- The text of an exponent is plain. -/
theorem plain_exponentText (e : Int) : Plain (NumberLayout.exponentText e) := by
  rw [NumberLayout.exponentText]
  split
  · exact plain_append (by decide) (plain_repr e.natAbs)
  · exact plain_append (by decide) (plain_repr e.natAbs)

/-- Plain digits are arranged as a plain text, with or without an exponent. -/
theorem plain_arrange (layout : NumberLayout) {d : DecimalDigits}
    (h : ∀ c ∈ d.digits, PlainChar c) : Plain (layout.arrange d) := by
  rw [NumberLayout.arrange]
  split
  · exact plain_append (plain_ofList h) (plain_zeros _)
  split
  · refine plain_append (plain_append (plain_ofList ?_) (by decide)) (plain_ofList ?_)
    · exact fun c hc => h c (List.mem_of_mem_take hc)
    · exact fun c hc => h c (List.mem_of_mem_drop hc)
  split
  · exact plain_append (plain_append (by decide) (plain_zeros _)) (plain_ofList h)
  split
  next c hdigits =>
    refine plain_append (plain_singleton (h c ?_)) (plain_exponentText _)
    rw [hdigits]
    exact List.mem_singleton_self c
  next c rest _ hdigits =>
    rw [hdigits] at h
    refine plain_append (plain_append (plain_append (plain_singleton ?_) (by decide))
      (plain_ofList ?_)) (plain_exponentText _)
    · exact h c List.mem_cons_self
    · exact fun other hother => h other (List.mem_cons_of_mem c hother)
  next => exact plain_exponentText _

/-- The shortest digits of a number are decimal digits. -/
theorem plainChar_ofRat (q : Rat) : ∀ c ∈ (Shortest.ofRat q).digits, PlainChar c := by
  intro c hc
  rw [Shortest.ofRat] at hc
  dsimp only at hc
  have hrest := List.mem_reverse.mp ((List.dropWhile_sublist _).subset (List.mem_reverse.mp hc))
  exact plainChar_toDigits _ c hrest

/-- Every number is written with plain characters. -/
theorem Binary64.plain_text (a : Binary64) : Plain a.text := by
  cases a with
  | nan => exact (by decide : Plain "NaN")
  | infinite negative =>
    cases negative with
    | true => exact (by decide : Plain "-Infinity")
    | false => exact (by decide : Plain "Infinity")
  | finite q =>
    rw [Binary64.text]
    split
    · exact plain_toString q.num
    split
    · exact plain_append (by decide) (plain_arrange _ (plainChar_ofRat _))
    · exact plain_arrange _ (plainChar_ofRat _)

end Flipbook
