import Flipbook.Proofs.Archive.Names
import Flipbook.Proofs.Number.Shortest

/-!
# When a listing reads back

The columns of a listing part its fields only if these leave room for a blank. A number of seven
digits runs into the type, and a type of eight letters into the label, if there is one. Apart from
that every label reads back, however long it is and whatever blanks and digits it has inside, and
every size that is written without an exponent.

## Main results

* `readFlashName_listing`: fields that leave a blank behind them read back;
* `readFlashName_wideNumber`, `readFlashName_wideType`, `readFlashName_sign`: others do not;
* `readFlashName_flashName_iff`: which listings read back.
-/

namespace Flipbook

section Columns

variable {number type label size : List Char}

/-- The size ends a listing. -/
theorem listing_append (number type label front size : List Char) :
    listing number type label (front ++ size) = listing number type label front ++ size := by
  simp only [listing, List.append_assoc]

/-- A listing of fields that leave a blank behind them reads back. -/
theorem readFlashName_listing (hfields : ListedFields type label) (hnumber : number ≠ [])
    (hnumbers : ∀ c ∈ number, c.isDigit = true) (hsize : size ≠ [])
    (hsizes : ∀ c ∈ size, c.isDigit = true) (hlength : number.length < 7)
    (hroom : type.length < 8 ∨ label = []) :
    readFlashName (String.ofList (listing number type label size)) = some
      { number := digitsNumber number, type := String.ofList type, label := String.ofList label,
        extension := "", size := some (digitsNumber size) } := by
  by_cases hshort : type.length < 8
  · exact readFlashName_columns (by omega) (by omega) (Nat.succ_pos _) hnumber hnumbers
      hfields.type_ne hfields.type_upper hfields.label_head hfields.label_last hfields.label_line
      hsize hsizes
  · -- Without a label, the blanks of its column part the type from the size.
    obtain rfl : label = [] := hroom.resolve_left hshort
    have hblanks : listing number type [] size = number ++
        (List.replicate (7 - number.length) ' ' ++ (type ++
          (List.replicate 1 ' ' ++ ([] ++ (List.replicate 21 ' ' ++ size))))) := by
      have hnone : 8 - type.length = 0 := by omega
      rw [listing, hnone]
      rfl
    rw [hblanks]
    exact readFlashName_columns (by omega) (by omega) (by omega) hnumber hnumbers
      hfields.type_ne hfields.type_upper hfields.label_head hfields.label_last hfields.label_line
      hsize hsizes

/-- A number that fills its column runs into the type. -/
theorem readFlashName_wideNumber (htype : type ≠ []) (htypes : ∀ c ∈ type, c.isUpper = true)
    (hnumbers : ∀ c ∈ number, c.isDigit = true) (hlength : 7 ≤ number.length) :
    readFlashName (String.ofList (listing number type label size)) = none := by
  obtain ⟨c, type, rfl⟩ := List.exists_cons_of_ne_nil htype
  have hc := htypes c List.mem_cons_self
  have hdigit : c.isDigit = false := by
    by_contra hdigit
    have hcode := toNat_of_isDigit (Bool.eq_true_of_not_eq_false hdigit)
    have hcode' := toNat_of_isUpper hc
    omega
  have hnone : 7 - number.length = 0 := by omega
  rw [readFlashName, String.toList_ofList, listing, hnone, List.replicate_zero, List.nil_append,
    List.cons_append, splitRun_append _ hnumbers (by simpa using hdigit)]
  dsimp only
  rw [splitRun_of_head (by simpa using isBlank_of_isUpper hc)]
  simp

/-- A type that fills its column runs into the label. What is read then has a longer type, if
anything is read. -/
theorem readFlashName_wideType (hfields : ListedFields type label) (hlabel : label ≠ [])
    (hnumbers : ∀ c ∈ number, c.isDigit = true) (hlength : number.length < 7)
    (hwide : 8 ≤ type.length) :
    ∀ name ∈ readFlashName (String.ofList (listing number type label size)),
      name.type ≠ String.ofList type := by
  obtain ⟨c, label, rfl⟩ := List.exists_cons_of_ne_nil hlabel
  have hnone : 8 - type.length = 0 := by omega
  have htypeHead : ∀ tail, ∀ d ∈ (type ++ tail).head?, isBlank d = false := by
    intro tail d hd
    rw [List.head?_append_of_ne_nil _ hfields.type_ne] at hd
    exact isBlank_of_isUpper (hfields.type_upper d (List.mem_of_mem_head? hd))
  intro name hname
  rw [readFlashName, String.toList_ofList, listing, hnone, List.replicate_zero, List.nil_append,
    splitRun_append _ hnumbers (head?_spaces (by omega) _ (by decide))] at hname
  dsimp only at hname
  rw [splitRun_append _ (isBlank_spaces _) (htypeHead _)] at hname
  dsimp only at hname
  rw [List.cons_append, splitRun, List.takeWhile_append_of_pos hfields.type_upper,
    List.dropWhile_append_of_pos hfields.type_upper] at hname
  dsimp only at hname
  cases hupper : c.isUpper with
  | true =>
    -- The first letter of the label belongs to the type that is read.
    rw [List.takeWhile_cons_of_pos hupper] at hname
    split at hname
    · cases hname
    · obtain ⟨parts, -, rfl⟩ := Option.map_eq_some_iff.mp hname
      dsimp only
      rw [Ne, String.ofList_inj]
      intro heq
      have hlength := congrArg List.length heq
      simp at hlength
  | false =>
    -- There is no blank behind the type.
    rw [List.dropWhile_cons_of_neg (by simpa using hupper),
      splitRun_of_head (by simpa using hfields.label_head)] at hname
    simp at hname

/-- A run of other characters ends in front of a sign at the latest. -/
theorem exists_splitRun_sign {p : Char → Bool} (hp : p '+' = false) (front digits : List Char) :
    ∃ run rest, splitRun p (front ++ '+' :: digits) = (run, rest ++ '+' :: digits) := by
  induction front with
  | nil => exact ⟨[], [], splitRun_of_head (by simpa using hp)⟩
  | cons c front ih =>
    rw [List.cons_append, splitRun, List.takeWhile_cons, List.dropWhile_cons]
    obtain ⟨run, rest, hsplit⟩ := ih
    rw [splitRun, Prod.mk.injEq] at hsplit
    split
    · exact ⟨_, rest, by rw [hsplit.2]⟩
    · exact ⟨[], c :: front, rfl⟩

/-- A size with an exponent is not read. -/
theorem readFlashName_sign (front : List Char) {digits : List Char}
    (hdigits : ∀ c ∈ digits, c.isDigit = true) :
    readFlashName (String.ofList (front ++ '+' :: digits)) = none := by
  have hnone (gap front : List Char) : splitLabelAfter gap (front ++ '+' :: digits) = none := by
    have hlabel : splitLabel (front ++ '+' :: digits) = none := by
      rw [splitLabel, List.reverse_append, List.reverse_cons, List.append_assoc,
        splitRun_append _ (fun c hc => hdigits c (List.mem_reverse.mp hc)) (by simp)]
      dsimp only
      rw [splitRun_of_head (by simp; decide)]
      simp
    rw [splitLabelAfter, hlabel]
    dsimp only
    rw [if_neg (by simp)]
  -- No field in front of the size takes in the sign, so the size has it.
  obtain ⟨number, afterNumber, hnumber⟩ :=
    exists_splitRun_sign (p := Char.isDigit) (by decide) front digits
  obtain ⟨gap₁, afterGap, hgap₁⟩ :=
    exists_splitRun_sign (p := isBlank) (by decide) afterNumber digits
  obtain ⟨type, afterType, htype⟩ :=
    exists_splitRun_sign (p := Char.isUpper) (by decide) afterGap digits
  obtain ⟨gap₂, rest, hgap₂⟩ := exists_splitRun_sign (p := isBlank) (by decide) afterType digits
  rw [readFlashName, String.toList_ofList, hnumber]
  dsimp only
  rw [hgap₁]
  dsimp only
  rw [htype]
  dsimp only
  rw [hgap₂]
  dsimp only
  rw [hnone, Option.map_none, ite_self]

end Columns

section Names

variable {n s : Nat} {type label : String}

/-- A listing reads back exactly if the number has at most six digits, the type leaves a blank in
its column or there is no label, and the size is written without an exponent. -/
theorem readFlashName_flashName_iff (hpos : 0 < n) (hn : n < Binary64.exactBound)
    (hfields : ListedFields type.toList label.toList) (hsize : (Binary64.finite (s : Rat)).Valid) :
    ∃ name, flashName (.ofNat n) type label (.finite s) = .ok name ∧
      (readFlashName name = some
          { number := .ofNat n, type := type, label := label, extension := "",
            size := some (.finite s) } ↔
        n < 10 ^ 6 ∧ (type.toList.length ≤ 7 ∨ label = "") ∧ s < 10 ^ 21) := by
  refine ⟨_, flashName_eq_listing hpos hn hfields s, ?_⟩
  have hdigits : (Nat.toDigits 10 n).length < 7 ↔ n < 10 ^ 6 :=
    Nat.lt_succ_iff.trans (Nat.length_toDigits_le_iff (by decide) (by decide))
  constructor
  · -- A field that is too wide would be read in another way, or not at all.
    intro hread
    have hnumber : n < 10 ^ 6 := by
      by_contra hwide
      rw [readFlashName_wideNumber hfields.type_ne hfields.type_upper (isDigit_toDigits n)
        (by omega)] at hread
      cases hread
    refine ⟨hnumber, ?_, ?_⟩
    · by_contra hwide
      obtain ⟨htype, hlabel⟩ := not_or.mp hwide
      refine readFlashName_wideType hfields (by simpa using hlabel) (isDigit_toDigits n)
        (hdigits.mpr hnumber) (by omega) _ hread ?_
      rw [String.ofList_toList]
    · by_contra hgreat
      obtain ⟨front, e, htext⟩ := Binary64.text_of_le hsize (Nat.not_lt.mp hgreat)
      rw [htext, listing_append, readFlashName_sign _ (isDigit_toDigits e)] at hread
      cases hread
  · rintro ⟨hnumber, hroom, hlt⟩
    obtain ⟨hne, hsizes, hvalue⟩ := Binary64.text_of_lt hsize hlt
    rw [readFlashName_listing hfields Nat.toDigits_ne_nil (isDigit_toDigits n) hne hsizes
      (hdigits.mpr hnumber) (hroom.imp (by omega) (by simp)), digitsNumber_digits hn.le, hvalue,
      String.ofList_toList, String.ofList_toList]

/-- A label that is longer than its column, with numbers and blanks inside, and a size of 21 digits
read back. -/
theorem readFlashName_flashName_iff_longLabel :
    ∃ name,
      flashName (.ofNat 999999) "PROGRAM" "10 frames,  24 pictures each, 7"
        (.finite (10 ^ 20 : Nat)) = .ok name ∧
      readFlashName name = some
        { number := .ofNat 999999, type := "PROGRAM", label := "10 frames,  24 pictures each, 7",
          extension := "", size := some (.finite (10 ^ 20 : Nat)) } := by
  have hlistable : FrameFile.Listable ⟨"PROGRAM", "10 frames,  24 pictures each, 7", "", []⟩ := by
    decide
  have hsize : (Binary64.finite (10 ^ 20 : Nat)).Valid := by
    show Binary64.round _ = _
    decide +kernel
  obtain ⟨name, hname, hread⟩ :=
    readFlashName_flashName_iff (n := 999999) (by decide) (by decide) hlistable.fields hsize
  exact ⟨name, hname, hread.mpr ⟨by decide, by decide, by decide⟩⟩

/-- Number 1000000 leaves no blank in front of the type, and nothing is read. A type of eight
letters leaves none in front of a label, and another file is read. A size of 22 digits has an
exponent. -/
theorem readFlashName_overfull :
    (∃ name, flashName (.ofNat 1000000) "BINARY" "DATA Frame 0" (.ofNat 7) = .ok name ∧
      readFlashName name = none) ∧
    (∃ name, flashName (.ofNat 1) "PROGRAMS" "LIST" (.ofNat 7) = .ok name ∧
      readFlashName name = some
        { number := .ofNat 1, type := "PROGRAMSLIST", label := "", extension := "",
          size := some (.ofNat 7) }) ∧
    ∃ name, flashName (.ofNat 1) "BINARY" "" (.finite (10 ^ 21 : Nat)) = .ok name ∧
      readFlashName name = none := by
  refine ⟨?_, ?_, ?_⟩
  · exact ⟨"1000000BINARY  DATA Frame 0          7", by decide +kernel, by decide +kernel⟩
  · exact ⟨"1      PROGRAMSLIST                  7", by decide +kernel, by decide +kernel⟩
  · exact ⟨"1      BINARY                        1e+21", by decide +kernel, by decide +kernel⟩

end Names

end Flipbook
