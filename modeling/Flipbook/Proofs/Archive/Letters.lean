import Mathlib.Data.Char
import Mathlib.Data.List.Induction
import Mathlib.Data.List.Shortlex
import Mathlib.Data.Set.Function
import Flipbook.Proofs.Archive.Suffix
import Flipbook.Proofs.Number.Quotient

/-!
# The letters of archives count through all words

The archives of a set are lettered with the words over the small letters, the shorter ones first and
those of one length in alphabetical order, and no word is left out. The letters are computed with
rounded numbers, which makes no difference for indexes below `2 ^ 53`. From there on neighbouring
archives begin to share their letters.

## Main results

* `suffixBefore_lettersValue`, `shortlex_suffixChars_iff`: every word counts one archive, and words
  are counted in their order;
* `archiveSuffix_eq_rounded`: the exact letters are those of the rounded steps;
* `archiveSuffix_enumerates`: the letters of the indexes below `2 ^ 53`;
* `archiveSuffix_shared`: the first two archives that share their letters.
-/

namespace Flipbook

/-- A word is a text of one or more small letters. -/
def IsWord (cs : List Char) : Prop :=
  cs ≠ [] ∧ ∀ c ∈ cs, c.isLower

/-- One word goes before another if it is shorter, or as long and before it in the alphabet. -/
def Precedes (s t : String) : Prop :=
  List.Shortlex (· < ·) s.toList t.toList

section Words

/-- The codes of the small letters. -/
theorem isLower_iff_toNat {c : Char} : c.isLower ↔ 97 ≤ c.toNat ∧ c.toNat ≤ 122 := by
  change (decide (c.val ≥ 97) && decide (c.val ≤ 122)) = true ↔ _
  rw [Bool.and_eq_true, decide_eq_true_iff, decide_eq_true_iff]
  exact and_congr UInt32.le_iff_toNat_le UInt32.le_iff_toNat_le

theorem isLower_letter {i : Nat} (h : i < 26) : (letter i).isLower := by
  have hcode := toNat_letter h
  rw [isLower_iff_toNat]
  omega

/-- A small letter is told by its place in the alphabet. -/
theorem letter_toNat {c : Char} (h : c.isLower) : letter (c.toNat - 97) = c := by
  have hcode := isLower_iff_toNat.mp h
  rw [letter, Nat.add_sub_cancel' hcode.1, Char.ofNat_toNat]

/-- The letters that are put in front do not depend on what they are put in front of. -/
theorem suffixBefore_eq_append (n : Nat) (acc : List Char) :
    suffixBefore n acc = suffixBefore n [] ++ acc := by
  -- What is left to count is divided by 26, not less by one, so the induction is a strong one.
  induction n using Nat.strongRecOn generalizing acc with
  | ind n ih =>
    cases n with
    | zero => simp [suffixBefore]
    | succ n =>
      rw [suffixBefore, suffixBefore, ih (n / 26) (by omega), ih (n / 26) (by omega) [_],
        List.append_assoc]
      rfl

theorem forall_isLower_suffixBefore (n : Nat) {acc : List Char} (h : ∀ c ∈ acc, c.isLower) :
    ∀ c ∈ suffixBefore n acc, c.isLower := by
  fun_induction suffixBefore n acc with
  | case1 acc => exact h
  | case2 n acc ih =>
    exact ih (List.forall_mem_cons.mpr ⟨isLower_letter (Nat.mod_lt n (by decide)), h⟩)

/-- The letters of an archive are a word. -/
theorem isWord_suffixChars (index : Nat) : IsWord (suffixChars index) := by
  refine ⟨fun hnil => ?_, forall_isLower_suffixBefore _ (List.forall_mem_nil _)⟩
  have hvalue := lettersValue_suffixChars index
  rw [hnil] at hvalue
  exact absurd hvalue (by simp [lettersValue])

/-- One letter more counts on within the next 26 archives. -/
theorem lettersValue_concat (cs : List Char) (c : Char) :
    lettersValue (cs ++ [c]) = 26 * lettersValue cs + (c.toNat - 96) :=
  List.foldl_concat ..

/-- Small letters are the letters of the count that they stand for. -/
theorem suffixBefore_lettersValue {cs : List Char} (h : ∀ c ∈ cs, c.isLower) :
    suffixBefore (lettersValue cs) [] = cs := by
  induction cs using List.reverseRecOn with
  | nil => simp [lettersValue, suffixBefore]
  | append_singleton cs c ih =>
    obtain ⟨hcs, hc⟩ := List.forall_mem_append.mp h
    have hlower := hc c (List.mem_singleton_self c)
    have hcode := isLower_iff_toNat.mp hlower
    have hcount : lettersValue (cs ++ [c]) = 26 * lettersValue cs + (c.toNat - 97) + 1 := by
      rw [lettersValue_concat]
      omega
    rw [hcount, suffixBefore, suffixBefore_eq_append]
    have hdigit : (26 * lettersValue cs + (c.toNat - 97)) % 26 = c.toNat - 97 := by omega
    have hrest : (26 * lettersValue cs + (c.toNat - 97)) / 26 = lettersValue cs := by omega
    rw [hdigit, hrest, letter_toNat hlower, ih hcs]

/-- A word counts at least one archive. -/
theorem IsWord.lettersValue_pos {cs : List Char} (h : IsWord cs) : 0 < lettersValue cs := by
  by_contra hzero
  have hback := suffixBefore_lettersValue h.2
  rw [Nat.eq_zero_of_not_pos hzero, suffixBefore] at hback
  exact h.1 hback.symm

/-- Every word is the letters of an archive. -/
theorem IsWord.suffixChars_lettersValue {cs : List Char} (h : IsWord cs) :
    suffixChars (lettersValue cs - 1) = cs := by
  rw [suffixChars, Nat.sub_add_cancel h.lettersValue_pos, suffixBefore_lettersValue h.2]

end Words

section Order

/-- What a smaller count is continued to stays smaller, by letters as many. -/
theorem foldl_lt_foldl {a b : Nat} (hlt : a < b) {s t : List Char} (hs : ∀ c ∈ s, c.isLower)
    (ht : ∀ c ∈ t, c.isLower) (hlength : s.length = t.length) :
    s.foldl (fun n c => 26 * n + (c.toNat - 96)) a <
      t.foldl (fun n c => 26 * n + (c.toNat - 96)) b := by
  induction s generalizing a b t with
  | nil =>
    rw [List.length_eq_zero_iff.mp hlength.symm]
    exact hlt
  | cons c s ih =>
    obtain ⟨d, t, rfl⟩ := List.exists_of_length_succ t hlength.symm
    obtain ⟨hc, hs⟩ := List.forall_mem_cons.mp hs
    obtain ⟨hd, ht⟩ := List.forall_mem_cons.mp ht
    have hcode := isLower_iff_toNat.mp hc
    have hcode' := isLower_iff_toNat.mp hd
    -- A letter is worth 26 at most, which is not more than one count more is worth behind it.
    simp only [List.foldl_cons]
    exact ih (by omega) hs ht (Nat.succ.inj hlength)

/-- Of words as long as each other, the one that is first in the alphabet counts less. -/
theorem foldl_lt_foldl_of_lex (a : Nat) {s t : List Char} (h : List.Lex (· < ·) s t)
    (hs : ∀ c ∈ s, c.isLower) (ht : ∀ c ∈ t, c.isLower) (hlength : s.length = t.length) :
    s.foldl (fun n c => 26 * n + (c.toNat - 96)) a <
      t.foldl (fun n c => 26 * n + (c.toNat - 96)) a := by
  induction h generalizing a with
  | nil => simp at hlength
  | cons _ ih =>
    exact ih _ (List.forall_mem_cons.mp hs).2 (List.forall_mem_cons.mp ht).2 (Nat.succ.inj hlength)
  | @rel c s d t hcd =>
    obtain ⟨hc, hs⟩ := List.forall_mem_cons.mp hs
    obtain ⟨hd, ht⟩ := List.forall_mem_cons.mp ht
    have hcode := isLower_iff_toNat.mp hc
    have hless : c.toNat < d.toNat := UInt32.lt_iff_toNat_lt.mp hcd
    simp only [List.foldl_cons]
    exact foldl_lt_foldl (by omega) hs ht (Nat.succ.inj hlength)

/-- A word that goes before another counts less. -/
theorem lettersValue_lt_of_shortlex {s t : List Char} (hs : IsWord s) (ht : IsWord t)
    (h : List.Shortlex (· < ·) s t) : lettersValue s < lettersValue t := by
  rcases List.shortlex_def.mp h with hshort | ⟨hlength, hlex⟩
  · -- The letters that the longer word has in front make a count of their own, which is not zero.
    obtain ⟨front, back, rfl, hback⟩ : ∃ front back, t = front ++ back ∧ back.length = s.length :=
      ⟨t.take (t.length - s.length), t.drop (t.length - s.length), (List.take_append_drop _ _).symm,
        by rw [List.length_drop]; omega⟩
    obtain ⟨hfront, hlower⟩ := List.forall_mem_append.mp ht.2
    have hword : IsWord front := by
      refine ⟨?_, hfront⟩
      rintro rfl
      rw [List.nil_append, hback] at hshort
      exact Nat.lt_irrefl _ hshort
    rw [lettersValue, lettersValue, List.foldl_append]
    exact foldl_lt_foldl hword.lettersValue_pos hs.2 hlower hback.symm
  · exact foldl_lt_foldl_of_lex 0 hlex hs.2 ht.2 hlength

/-- Archives are lettered in the order of the words. -/
theorem shortlex_suffixChars_iff {i j : Nat} :
    List.Shortlex (· < ·) (suffixChars i) (suffixChars j) ↔ i < j := by
  have hless {i j : Nat} (h : List.Shortlex (· < ·) (suffixChars i) (suffixChars j)) : i < j := by
    have hvalue := lettersValue_lt_of_shortlex (isWord_suffixChars i) (isWord_suffixChars j) h
    rw [lettersValue_suffixChars, lettersValue_suffixChars] at hvalue
    omega
  -- The words are ordered throughout, so that the other direction follows.
  refine ⟨hless, fun hij => ?_⟩
  by_contra hnot
  have hsame := Std.Trichotomous.trichotomous (r := List.Shortlex (· < ·)) _ _ hnot
    fun hji => absurd (hless hji) (by omega)
  exact absurd (suffixChars_injective hsame) (by omega)

end Order

section Rounded

open Binary64

theorem roundedLetter_ofNat {n : Nat} (h : n < exactBound) :
    roundedLetter (.ofNat (n + 1)) = letter (n % 26) := by
  have hsmall : 97 + n % 26 ≤ exactBound := by
    have hexact : exactBound = 2 ^ 53 := rfl
    omega
  have hrem : (Binary64.ofNat (n + 1) - 1).rem 26 = .ofNat (n % 26) := by
    rw [ofNat_sub_one h]
    exact rem_ofNat h.le (by decide) (by decide)
  have hcode : (97 : Binary64) + .ofNat (n % 26) = .ofNat (97 + n % 26) := ofNat_add hsmall
  rw [roundedLetter, hrem, hcode, ofNat_eq_finite hsmall]
  rfl

/-- Up to `2 ^ 53` the rounded steps put the same letters in front, if there is fuel for all. -/
theorem roundedSuffixBefore_ofNat {fuel n : Nat} (hfuel : n < 26 ^ fuel) (h : n ≤ exactBound)
    (acc : List Char) : roundedSuffixBefore fuel (.ofNat n) acc = suffixBefore n acc := by
  induction fuel generalizing n acc with
  | zero =>
    obtain rfl : n = 0 := by simpa using hfuel
    rw [roundedSuffixBefore, suffixBefore]
  | succ fuel ih =>
    have hpositive : (0 : Binary64) < .ofNat n ↔ 0 < n := by
      rw [← decide_eq_true_iff (p := 0 < n), ← lt_ofNat (Nat.zero_le _) h]
      rfl
    cases n with
    | zero =>
      rw [roundedSuffixBefore, if_neg (by rw [hpositive]; omega), suffixBefore]
    | succ n =>
      have hrest : ((Binary64.ofNat (n + 1) - 1).div 26).floor = .ofNat (n / 26) := by
        rw [ofNat_sub_one h]
        exact floor_div_ofNat h (by decide) (by decide)
      rw [roundedSuffixBefore, if_pos (hpositive.mpr n.succ_pos), hrest, roundedLetter_ofNat h,
        suffixBefore]
      refine ih ?_ (by omega) _
      rw [Nat.pow_succ] at hfuel
      omega

/-- There is fuel for every exact count. -/
theorem lt_pow_maxSuffixLength {n : Nat} (h : n ≤ exactBound) : n < 26 ^ maxSuffixLength :=
  calc n ≤ exactBound := h
    _ < 26 ^ 12 := by decide
    _ ≤ 26 ^ maxSuffixLength := Nat.pow_le_pow_right (by decide) (by decide)

theorem archiveSuffix_ofNat {i : Nat} (h : i < exactBound) :
    archiveSuffix (.ofNat i) = String.ofList (suffixChars i) := by
  rw [archiveSuffix, toNat?_ofNat h.le, Option.filter_some, if_pos (decide_eq_true h)]

/-- The letters of every index are those of the rounded steps. -/
theorem archiveSuffix_eq_rounded (index : Binary64) :
    archiveSuffix index = String.ofList (roundedSuffixBefore maxSuffixLength (index + 1) []) := by
  rw [archiveSuffix]
  split
  next i hi =>
    obtain ⟨hindex, hi⟩ := Option.filter_eq_some_iff.mp hi
    have hexact := of_decide_eq_true hi
    rw [eq_ofNat_of_toNat? hindex hexact.le, ofNat_add_one hexact,
      roundedSuffixBefore_ofNat (lt_pow_maxSuffixLength hexact) hexact, suffixChars]
  next => rfl

/-- Of two exact indexes the smaller one has the letters that go before. -/
theorem precedes_archiveSuffix_iff {i j : Nat} (hi : i < exactBound) (hj : j < exactBound) :
    Precedes (archiveSuffix (.ofNat i)) (archiveSuffix (.ofNat j)) ↔ i < j := by
  rw [Precedes, archiveSuffix_ofNat hi, archiveSuffix_ofNat hj, String.toList_ofList,
    String.toList_ofList, shortlex_suffixChars_iff]

/-- A word that does not go behind the letters of an exact index belongs to an exact index. -/
theorem exists_archiveSuffix_eq {last : Nat} (hlast : last < exactBound) {word : String}
    (hword : IsWord word.toList)
    (h : word = archiveSuffix (.ofNat last) ∨ Precedes word (archiveSuffix (.ofNat last))) :
    ∃ i ≤ last, archiveSuffix (.ofNat i) = word := by
  obtain ⟨i, hi⟩ : ∃ i, String.ofList (suffixChars i) = word :=
    ⟨_, by rw [hword.suffixChars_lettersValue, String.ofList_toList]⟩
  rw [archiveSuffix_ofNat hlast, Precedes, ← hi, String.toList_ofList, String.toList_ofList,
    shortlex_suffixChars_iff, String.ofList_inj, suffixChars_injective.eq_iff] at h
  have hle : i ≤ last := by omega
  exact ⟨i, hle, by rw [archiveSuffix_ofNat (hle.trans_lt hlast), hi]⟩

/-- The letters of the indexes below `2 ^ 53` are the words up to those of the last such index, each
once and in their order. So the archives of a set have names of their own. -/
theorem archiveSuffix_enumerates (stem : String) :
    (∀ i < exactBound, IsWord (archiveSuffix (.ofNat i)).toList) ∧
    (∀ i < exactBound, ∀ j < exactBound,
      (i < j ↔ Precedes (archiveSuffix (.ofNat i)) (archiveSuffix (.ofNat j)))) ∧
    (∀ word : String, IsWord word.toList →
      (word = archiveSuffix (.ofNat (exactBound - 1)) ∨
        Precedes word (archiveSuffix (.ofNat (exactBound - 1)))) →
      ∃! i, i < exactBound ∧ archiveSuffix (.ofNat i) = word) ∧
    Set.InjOn (fun i => archiveName stem (archiveSuffix (.ofNat i))) {i | i < exactBound} := by
  have hinj (i : Nat) (hi : i < exactBound) (j : Nat) (hj : j < exactBound)
      (h : archiveName stem (archiveSuffix (.ofNat i)) =
        archiveName stem (archiveSuffix (.ofNat j))) : i = j := by
    rw [archiveSuffix_ofNat hi, archiveSuffix_ofNat hj] at h
    exact archiveName_injective stem h
  refine ⟨?_, ?_, ?_, fun i hi j hj => hinj i hi j hj⟩
  · intro i hi
    rw [archiveSuffix_ofNat hi, String.toList_ofList]
    exact isWord_suffixChars i
  · intro i hi j hj
    exact (precedes_archiveSuffix_iff hi hj).symm
  · intro word hword hlast
    obtain ⟨i, hi, rfl⟩ := exists_archiveSuffix_eq (by decide) hword hlast
    have hi : i < exactBound := Nat.lt_of_le_of_lt hi (by decide)
    refine ⟨i, ⟨hi, rfl⟩, fun j hj => hinj j hj.1 i hi ?_⟩
    rw [hj.2]

/-- The letters go on from `zz` to `aaa`, and a word of eight letters is reached once. -/
theorem archiveSuffix_enumerates_anim :
    Precedes "zz" "aaa" ∧ ∃! i, i < exactBound ∧ archiveSuffix (.ofNat i) = "flipbook" := by
  have hz : archiveSuffix (.ofNat 701) = "zz" := by
    rw [archiveSuffix_ofNat (by decide)]
    simp [suffixChars, suffixBefore, letter]
  have ha : archiveSuffix (.ofNat 702) = "aaa" := by
    rw [archiveSuffix_ofNat (by decide)]
    simp [suffixChars, suffixBefore, letter]
  have hlast : archiveSuffix (.ofNat (exactBound - 1)) = "bktxhsoghkkf" := by
    rw [archiveSuffix_ofNat (by decide)]
    simp [suffixChars, suffixBefore, letter, exactBound]
  obtain ⟨-, horder, hall, -⟩ := archiveSuffix_enumerates "anim"
  constructor
  · rw [← hz, ← ha]
    exact (horder 701 (by decide) 702 (by decide)).mp (by decide)
  · refine hall "flipbook" ⟨by decide, List.all_eq_true.mp (by decide)⟩ (.inr ?_)
    rw [hlast]
    exact .of_length_lt (by decide)

/-- The successor of `2 ^ 53` is rounded to `2 ^ 53`, so that two archives have the same letters. -/
theorem archiveSuffix_shared :
    Binary64.ofNat 9007199254740991 ≠ .ofNat 9007199254740992 ∧
      archiveSuffix (.ofNat 9007199254740991) = "bktxhsoghkkf" ∧
      archiveSuffix (.ofNat 9007199254740992) = "bktxhsoghkkf" := by
  have hletters : suffixBefore 9007199254740992 [] = "bktxhsoghkkf".toList := by
    simp [suffixBefore, letter]
  have hsuccessor : Binary64.ofNat 9007199254740992 + 1 = .ofNat 9007199254740992 := by
    decide +kernel
  refine ⟨?_, ?_, ?_⟩
  · rw [Ne, ofNat_inj (by decide) (by decide)]
    decide
  · rw [archiveSuffix_ofNat (by decide), suffixChars, hletters, String.ofList_toList]
  · rw [archiveSuffix_eq_rounded, hsuccessor,
      roundedSuffixBefore_ofNat (lt_pow_maxSuffixLength (by decide)) (by decide), hletters,
      String.ofList_toList]

end Rounded

end Flipbook
