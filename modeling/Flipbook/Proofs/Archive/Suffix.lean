import Mathlib.Logic.Function.Defs
import Flipbook.Archive.Suffix

/-!
# No two archives of a set have the same name

The letters of an archive count the archives in base 26, with digits from 1 to 26 in place of those
from 0 to 25. So every count has its own letters, and the count can be told from them.

## Main results

* `suffixChars_injective`: archives are told apart by their letters;
* `archiveName_injective`: and so are their names, with the letters between stem and extension.
-/

namespace Flipbook

/-- The count that letters stand for. -/
def lettersValue (cs : List Char) : Nat :=
  cs.foldl (fun n c => 26 * n + (c.toNat - 96)) 0

theorem toNat_letter {i : Nat} (h : i < 26) : (letter i).toNat = 97 + i := by
  have hvalid : (97 + i).isValidChar := .inl (by omega)
  rw [letter, Char.ofNat, dif_pos hvalid]
  rfl

/-- The letters that are put in front complete the count. -/
theorem foldl_suffixBefore (n : Nat) (acc : List Char) :
    lettersValue (suffixBefore n acc) = acc.foldl (fun n c => 26 * n + (c.toNat - 96)) n := by
  fun_induction suffixBefore n acc with
  | case1 acc => rfl
  | case2 n acc ih =>
    rw [ih, List.foldl_cons, toNat_letter (Nat.mod_lt n (by decide))]
    congr 1
    omega

theorem lettersValue_suffixChars (index : Nat) : lettersValue (suffixChars index) = index + 1 :=
  foldl_suffixBefore (index + 1) []

theorem suffixChars_injective : Function.Injective suffixChars := by
  intro i j h
  have hvalue := congrArg lettersValue h
  rw [lettersValue_suffixChars, lettersValue_suffixChars] at hvalue
  omega

theorem archiveName_injective (stem : String) :
    Function.Injective fun index => archiveName stem (String.ofList (suffixChars index)) := by
  intro i j h
  have hchars := congrArg String.toList h
  simp only [archiveName, String.toList_append, String.toList_ofList, List.append_assoc,
    List.append_cancel_left_eq, List.append_cancel_right_eq] at hchars
  exact suffixChars_injective hchars

end Flipbook
