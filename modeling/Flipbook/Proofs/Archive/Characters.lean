import Mathlib.Data.List.Basic
import Flipbook.Archive.Naming
import Flipbook.Storage.Path

/-!
# Runs of characters

Digits, capital letters and blanks by their codes, and what splitting a run of characters off a text
gives when the text is put together from such runs.

## Main results

* `splitRun_append`: a run followed by a character of another kind is split off as a whole;
* `baseName_eq_self`: a name without slashes is its own last part.
-/

namespace Flipbook

variable {c : Char}

/-- The codes of the decimal digits. -/
theorem toNat_of_isDigit (h : c.isDigit = true) : 48 ≤ c.toNat ∧ c.toNat ≤ 57 := by
  simpa [Char.isDigit, UInt32.le_iff_toNat_le] using h

/-- The codes of the capital letters. -/
theorem toNat_of_isUpper (h : c.isUpper = true) : 65 ≤ c.toNat ∧ c.toNat ≤ 90 := by
  have hbounds : decide ('A'.val ≤ c.val ∧ c.val ≤ 'Z'.val) = true := h
  simpa [UInt32.le_iff_toNat_le] using hbounds

/-- No blank stands between the codes of the space and of the no-break space. -/
theorem isBlank_of_toNat (hlow : 32 < c.toNat) (hhigh : c.toNat < 160) : isBlank c = false := by
  simp only [isBlank, loneBlanks, List.contains_eq_mem, List.mem_cons, List.not_mem_nil, or_false,
    Bool.or_eq_false_iff, Bool.and_eq_false_iff, decide_eq_false_iff_not, not_or]
  omega

/-- A digit is no blank. -/
theorem isBlank_of_isDigit (h : c.isDigit = true) : isBlank c = false := by
  obtain ⟨hlow, hhigh⟩ := toNat_of_isDigit h
  exact isBlank_of_toNat (by omega) (by omega)

/-- A capital letter is no blank. -/
theorem isBlank_of_isUpper (h : c.isUpper = true) : isBlank c = false := by
  obtain ⟨hlow, hhigh⟩ := toNat_of_isUpper h
  exact isBlank_of_toNat (by omega) (by omega)

/-- A digit is no slash. -/
theorem ne_slash_of_isDigit (h : c.isDigit = true) : c ≠ '/' := by
  rintro rfl
  exact absurd h (by decide)

/-- A capital letter is no slash. -/
theorem ne_slash_of_isUpper (h : c.isUpper = true) : c ≠ '/' := by
  rintro rfl
  exact absurd h (by decide)

/-- A letter or digit is no slash. -/
theorem ne_slash_of_isAlphanum (h : c.isAlphanum = true) : c ≠ '/' := by
  rintro rfl
  exact absurd h (by decide)

/-- A text of characters of the basic plane has as many units as characters. -/
theorem length16_of_basic {cs : List Char} (h : ∀ c ∈ cs, c.toNat < 0x10000) :
    length16 cs = cs.length := by
  induction cs with
  | nil => rfl
  | cons c cs ih =>
    have hunits : units16 c = 1 := if_pos (h c List.mem_cons_self)
    have hrest : length16 cs = cs.length := ih fun d hd => h d (List.mem_cons_of_mem c hd)
    rw [length16, hunits, hrest, List.length_cons]
    omega

/-- A digit is a character of the basic plane. -/
theorem length16_of_digits {cs : List Char} (h : ∀ c ∈ cs, c.isDigit = true) :
    length16 cs = cs.length :=
  length16_of_basic fun c hc => by have := toNat_of_isDigit (h c hc); omega

/-- A capital letter is a character of the basic plane. -/
theorem length16_of_upper {cs : List Char} (h : ∀ c ∈ cs, c.isUpper = true) :
    length16 cs = cs.length :=
  length16_of_basic fun c hc => by have := toNat_of_isUpper (h c hc); omega

/-- Decimal digits are digits. -/
theorem isDigit_toDigits (n : Nat) : ∀ c ∈ Nat.toDigits 10 n, c.isDigit = true :=
  fun _ hc => Nat.isDigit_of_mem_toDigits (by decide) (by decide) hc

/-- A property of all characters of a text can be checked one by one. -/
theorem forall_mem_of_all {p : Char → Prop} [DecidablePred p] {cs : List Char}
    (h : (cs.all fun c => decide (p c)) = true) : ∀ c ∈ cs, p c := by
  simpa using h

section Runs

variable {p : Char → Bool} {run rest : List Char}

/-- A run of characters of a kind, with a character of another kind behind it, is split off as a
whole. -/
theorem splitRun_append (rest : List Char) (hrun : ∀ c ∈ run, p c = true)
    (hrest : ∀ c ∈ rest.head?, p c = false) : splitRun p (run ++ rest) = (run, rest) := by
  rw [splitRun, List.takeWhile_append_of_pos hrun, List.dropWhile_append_of_pos hrun]
  cases rest with
  | nil => simp
  | cons c rest =>
    have hc : p c = false := hrest c rfl
    simp [hc]

/-- A text of one kind is split off as a whole. -/
theorem splitRun_self (hrun : ∀ c ∈ run, p c = true) : splitRun p run = (run, []) := by
  have h := splitRun_append [] hrun (by simp)
  rwa [List.append_nil] at h

/-- Nothing is split off where another kind begins. -/
theorem splitRun_of_head (hrest : ∀ c ∈ rest.head?, p c = false) :
    splitRun p rest = ([], rest) :=
  splitRun_append rest (by simp : ∀ c ∈ [], p c = true) hrest

/-- What a text starts with can be dropped. -/
theorem dropStart?_append (start rest : List Char) :
    dropStart? start (start ++ rest) = some rest := by
  induction start with
  | nil => rfl
  | cons c start ih => simpa [dropStart?] using ih

end Runs

/-- A text without separators is one piece. -/
theorem piecesBy_of_forall {p : Char → Bool} {cs : List Char} (h : ∀ c ∈ cs, p c = false) :
    piecesBy p cs = [cs] := by
  induction cs with
  | nil => rfl
  | cons c cs ih =>
    rw [piecesBy, h c List.mem_cons_self, ih fun d hd => h d (List.mem_cons_of_mem c hd)]
    rfl

theorem piecesBy_ne_nil (p : Char → Bool) (cs : List Char) : piecesBy p cs ≠ [] := by
  cases cs with
  | nil => exact List.cons_ne_nil _ _
  | cons c cs =>
    rw [piecesBy]
    split
    · exact List.cons_ne_nil _ _
    · split <;> exact List.cons_ne_nil _ _

/-- At a separator a text falls into the pieces in front of it and those behind it. -/
theorem piecesBy_append {p : Char → Bool} (hc : p c = true) (cs ds : List Char) :
    piecesBy p (cs ++ c :: ds) = piecesBy p cs ++ piecesBy p ds := by
  induction cs with
  | nil => exact if_pos hc
  | cons d cs ih =>
    rw [List.cons_append, piecesBy, piecesBy, ih]
    split
    · rfl
    · cases hcs : piecesBy p cs with
      | nil => exact absurd hcs (piecesBy_ne_nil p cs)
      | cons q qs => rfl

/-- A name without slashes is its own last part. -/
theorem baseName_eq_self {name : String} (hne : name ≠ "")
    (h : ∀ c ∈ name.toList, c ≠ '/') : baseName name = name := by
  have hpieces : piecesBy (· = '/') name.toList = [name.toList] :=
    piecesBy_of_forall fun c hc => decide_eq_false (h c hc)
  have hlist : name.toList ≠ [] := by
    rwa [ne_eq, String.toList_eq_nil_iff]
  simp [baseName, pathParts, wordsBy, hpieces, hlist]

end Flipbook
