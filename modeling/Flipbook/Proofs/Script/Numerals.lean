import Flipbook.Proofs.Archive.Characters
import Flipbook.Script.Token

/-!
# How numbers are spelled

The spellings of integers, decimal numerals and frame ranges as a grammar, and that the readers of
numbers accept just these spellings, each with its value.

## Main definitions

* `SpelledSign`, `Digits`, `SpelledInteger`: integers.
* `Mantissa`, `Exponent`, `Decimal.Spelled`: decimal numerals.

## Main results

* `signedInteger?_eq_some_iff`, `Decimal.ofChars?_eq_some_iff`, `rangeOfChars?_eq_some_iff`: what is
  read is what is spelled.
-/

namespace Flipbook

/-- A sign, which may be missing; the flag tells whether it is a minus. -/
inductive SpelledSign : List Char → Bool → Prop
  | none : SpelledSign [] false
  | plus : SpelledSign ['+'] false
  | minus : SpelledSign ['-'] true

/-- Decimal digits, at least one. -/
structure Digits (cs : List Char) : Prop where
  ne_nil : cs ≠ []
  all : ∀ c ∈ cs, c.isDigit = true

/-- An integer is a sign with digits behind it. -/
inductive SpelledInteger : List Char → Int → Prop
  | intro {sign digits : List Char} {negative : Bool} (hsign : SpelledSign sign negative)
      (hdigits : Digits digits) :
      SpelledInteger (sign ++ digits)
        (if negative then -(digitsValue digits : Int) else digitsValue digits)

/-- The digits of a numeral, with at most one point among them: those in front of the point and
those behind it. -/
inductive Mantissa : List Char → List Char → List Char → Prop
  | whole {digits : List Char} (hdigits : Digits digits) : Mantissa digits digits []
  | point {digits : List Char} (hdigits : Digits digits) : Mantissa (digits ++ ['.']) digits []
  | both {digits places : List Char} (hdigits : Digits digits) (hplaces : Digits places) :
      Mantissa (digits ++ '.' :: places) digits places
  | places {places : List Char} (hplaces : Digits places) : Mantissa ('.' :: places) [] places

/-- The exponent of a numeral, which may be missing. -/
inductive Exponent : List Char → Int → Prop
  | none : Exponent [] 0
  | some {e : Char} {cs : List Char} {n : Int} (he : e = 'e' ∨ e = 'E') (h : SpelledInteger cs n) :
      Exponent (e :: cs) n

/-- A decimal numeral is a sign, a mantissa and an exponent. -/
inductive Decimal.Spelled : List Char → Decimal → Prop
  | intro {sign mantissa digits places exponent : List Char} {negative : Bool} {e : Int}
      (hsign : SpelledSign sign negative) (hmantissa : Mantissa mantissa digits places)
      (hexponent : Exponent exponent e) :
      Decimal.Spelled (sign ++ (mantissa ++ exponent))
        ⟨negative, digitsValue (digits ++ places), e - places.length⟩

section Signs

variable {cs sign body : List Char} {negative : Bool}

/-- A character that is no sign. -/
def NoSign (c : Char) : Prop :=
  c ≠ '-' ∧ c ≠ '+'

theorem noSign_of_isDigit {c : Char} (h : c.isDigit = true) : NoSign c := by
  constructor
  · rintro rfl
    exact absurd h (by decide)
  · rintro rfl
    exact absurd h (by decide)

theorem exists_of_splitSign (h : splitSign cs = (negative, body)) :
    ∃ sign, SpelledSign sign negative ∧ cs = sign ++ body := by
  unfold splitSign at h
  split at h
  · obtain ⟨rfl, rfl⟩ := Prod.mk.inj h
    exact ⟨_, .minus, rfl⟩
  · obtain ⟨rfl, rfl⟩ := Prod.mk.inj h
    exact ⟨_, .plus, rfl⟩
  · obtain ⟨rfl, rfl⟩ := Prod.mk.inj h
    exact ⟨_, .none, rfl⟩

theorem splitSign_append (hsign : SpelledSign sign negative) (hbody : ∀ c ∈ body.head?, NoSign c) :
    splitSign (sign ++ body) = (negative, body) := by
  cases hsign with
  | none =>
    rw [List.nil_append, splitSign.eq_def]
    split
    · exact absurd rfl (hbody _ rfl).1
    · exact absurd rfl (hbody _ rfl).2
    · rfl
  | plus => rfl
  | minus => rfl

/-- Digits begin with no sign. -/
theorem Digits.head?_noSign (h : Digits body) (rest : List Char) :
    ∀ c ∈ (body ++ rest).head?, NoSign c := by
  intro c hc
  rw [List.head?_append_of_ne_nil _ h.ne_nil] at hc
  exact noSign_of_isDigit (h.all c (List.mem_of_head? hc))

theorem Mantissa.head?_noSign {mantissa digits places : List Char}
    (h : Mantissa mantissa digits places) (rest : List Char) :
    ∀ c ∈ (mantissa ++ rest).head?, NoSign c := by
  have hpoint : NoSign '.' := ⟨by decide, by decide⟩
  cases h with
  | whole hdigits => exact hdigits.head?_noSign rest
  | point hdigits | both hdigits =>
    rw [List.append_assoc]
    exact hdigits.head?_noSign _
  | places =>
    intro c hc
    obtain rfl := Option.some.inj hc
    exact hpoint

theorem Mantissa.not_isEmpty {mantissa digits places : List Char}
    (h : Mantissa mantissa digits places) : (digits.isEmpty && places.isEmpty) = false := by
  cases h with
  | whole hdigits => simp [hdigits.ne_nil]
  | point hdigits => simp [hdigits.ne_nil]
  | both hdigits => simp [hdigits.ne_nil]
  | places hplaces => simp [hplaces.ne_nil]

end Signs

section Integers

variable {cs : List Char} {n : Int}

theorem digits_iff : Digits cs ↔ (cs.isEmpty || !cs.all Char.isDigit) = false := by
  simp only [Bool.or_eq_false_iff, List.isEmpty_eq_false_iff, Bool.not_eq_false', List.all_eq_true]
  exact ⟨fun h => ⟨h.ne_nil, h.all⟩, fun h => ⟨h.1, h.2⟩⟩

/-- Just the spelled integers are read. -/
theorem signedInteger?_eq_some_iff : signedInteger? cs = some n ↔ SpelledInteger cs n := by
  constructor
  · intro h
    unfold signedInteger? at h
    generalize hsplit : splitSign cs = parts at h
    obtain ⟨negative, digits⟩ := parts
    obtain ⟨sign, hsign, rfl⟩ := exists_of_splitSign hsplit
    dsimp only at h
    split at h
    · cases h
    next hdigits =>
      obtain rfl := Option.some.inj h
      exact .intro hsign (digits_iff.mpr (Bool.not_eq_true _ ▸ hdigits))
  · rintro ⟨hsign, hdigits⟩
    have hhead := hdigits.head?_noSign []
    rw [List.append_nil] at hhead
    rw [signedInteger?, splitSign_append hsign hhead]
    dsimp only
    rw [digits_iff.mp hdigits, if_neg Bool.false_ne_true]

theorem exponentOfChars?_eq_some_iff :
    Decimal.exponentOfChars? cs = some n ↔ Exponent cs n := by
  cases cs with
  | nil =>
    rw [Decimal.exponentOfChars?, Option.some.injEq]
    constructor
    · rintro rfl
      exact .none
    · intro h
      cases h
      rfl
  | cons c rest =>
    rw [Decimal.exponentOfChars?]
    constructor
    · intro h
      split at h
      next he => exact .some he (signedInteger?_eq_some_iff.mp h)
      next => cases h
    · intro h
      cases h with
      | some he h => rw [if_pos he, signedInteger?_eq_some_iff.mpr h]

/-- An exponent begins with a letter. -/
theorem Exponent.head? (h : Exponent cs n) : ∀ c ∈ cs.head?, c = 'e' ∨ c = 'E' := by
  intro c hc
  cases h with
  | none => cases hc
  | some he =>
    obtain rfl := Option.some.inj hc
    exact he

end Integers

namespace Decimal

variable {cs body mantissa digits places exponent : List Char} {d : Decimal} {e : Int}

/-- The digits in front of the point, with those behind it and the rest. -/
def splitMantissa (cs : List Char) : List Char × List Char × List Char :=
  (cs.takeWhile Char.isDigit,
    match cs.dropWhile Char.isDigit with
    | '.' :: tail => (tail.takeWhile Char.isDigit, tail.dropWhile Char.isDigit)
    | tail => ([], tail))

theorem ofChars?_eq (cs : List Char) :
    ofChars? cs =
      let (negative, body) := splitSign cs
      let (digits, places, rest) := splitMantissa body
      if digits.isEmpty && places.isEmpty then none
      else (exponentOfChars? rest).map fun e =>
        ⟨negative, digitsValue (digits ++ places), e - places.length⟩ :=
  rfl

theorem isDigit_of_mem_takeWhile (cs : List Char) :
    ∀ c ∈ cs.takeWhile Char.isDigit, c.isDigit = true :=
  List.all_eq_true.mp List.all_takeWhile

/-- What stands in front of the rest is a mantissa if it has any digits. -/
theorem exists_of_splitMantissa (h : splitMantissa body = (digits, places, exponent))
    (hne : (digits.isEmpty && places.isEmpty) = false) :
    ∃ mantissa, Mantissa mantissa digits places ∧ body = mantissa ++ exponent := by
  have hbody := List.takeWhile_append_dropWhile (p := Char.isDigit) (l := body)
  have hdigits := isDigit_of_mem_takeWhile body
  rw [splitMantissa, Prod.mk.injEq] at h
  obtain ⟨rfl, h⟩ := h
  generalize body.takeWhile Char.isDigit = digits at *
  split at h
  next tail htail =>
    rw [Prod.mk.injEq] at h
    obtain ⟨rfl, rfl⟩ := h
    have hplaces := isDigit_of_mem_takeWhile tail
    rw [htail, ← List.takeWhile_append_dropWhile (p := Char.isDigit) (l := tail)] at hbody
    -- There are digits in front of the point or behind it, or both.
    by_cases hd : digits = []
    · rw [hd] at hbody hne ⊢
      have hp : tail.takeWhile Char.isDigit ≠ [] := by simpa using hne
      exact ⟨_, .places ⟨hp, hplaces⟩, hbody.symm⟩
    · by_cases hp : tail.takeWhile Char.isDigit = []
      · rw [hp] at hbody ⊢
        refine ⟨_, .point ⟨hd, hdigits⟩, ?_⟩
        rw [← hbody, List.append_assoc]
        rfl
      · refine ⟨_, .both ⟨hd, hdigits⟩ ⟨hp, hplaces⟩, ?_⟩
        rw [← hbody, List.append_assoc]
        rfl
  next =>
    rw [Prod.mk.injEq] at h
    obtain ⟨rfl, rfl⟩ := h
    have hd : digits ≠ [] := by simpa using hne
    exact ⟨_, .whole ⟨hd, hdigits⟩, hbody.symm⟩

/-- What stands behind a mantissa begins with no digit and no point. -/
def Ends (cs : List Char) : Prop :=
  ∀ c ∈ cs.head?, c.isDigit = false ∧ c ≠ '.'

theorem ends_exponent (h : Exponent exponent e) : Ends exponent := by
  intro c hc
  rcases h.head? c hc with rfl | rfl
  · exact ⟨by decide, by decide⟩
  · exact ⟨by decide, by decide⟩

theorem splitMantissa_point (hdigits : ∀ c ∈ digits, c.isDigit = true)
    (hplaces : ∀ c ∈ places, c.isDigit = true) (h : Ends exponent) :
    splitMantissa (digits ++ '.' :: (places ++ exponent)) = (digits, places, exponent) := by
  have hfront := splitRun_append ('.' :: (places ++ exponent)) hdigits (by simp)
  have hback := splitRun_append exponent hplaces fun c hc => (h c hc).1
  rw [splitRun, Prod.mk.injEq] at hfront hback
  rw [splitMantissa, hfront.1, hfront.2]
  show (digits, List.takeWhile _ _, List.dropWhile _ _) = _
  rw [hback.1, hback.2]

theorem splitMantissa_whole (hdigits : ∀ c ∈ digits, c.isDigit = true) (h : Ends exponent) :
    splitMantissa (digits ++ exponent) = (digits, [], exponent) := by
  have hfront := splitRun_append exponent hdigits fun c hc => (h c hc).1
  rw [splitRun, Prod.mk.injEq] at hfront
  rw [splitMantissa, hfront.1, hfront.2]
  split
  · exact absurd rfl (h '.' rfl).2
  · rfl

theorem splitMantissa_append (hmantissa : Mantissa mantissa digits places) (h : Ends exponent) :
    splitMantissa (mantissa ++ exponent) = (digits, places, exponent) := by
  cases hmantissa with
  | whole hdigits => exact splitMantissa_whole hdigits.all h
  | point hdigits =>
    rw [List.append_assoc]
    exact splitMantissa_point hdigits.all (List.forall_mem_nil _) h
  | both hdigits hplaces =>
    rw [List.append_assoc]
    exact splitMantissa_point hdigits.all hplaces.all h
  | places hplaces => exact splitMantissa_point (List.forall_mem_nil _) hplaces.all h

/-- Just the spelled numerals are read. -/
theorem ofChars?_eq_some_iff : ofChars? cs = some d ↔ Spelled cs d := by
  rw [ofChars?_eq]
  constructor
  · intro h
    generalize hsplit : splitSign cs = parts at h
    obtain ⟨negative, body⟩ := parts
    dsimp only at h
    generalize hpieces : splitMantissa body = pieces at h
    obtain ⟨digits, places, exponent⟩ := pieces
    dsimp only at h
    split at h
    · cases h
    next hne =>
      obtain ⟨e, he, rfl⟩ := Option.map_eq_some_iff.mp h
      obtain ⟨sign, hsign, rfl⟩ := exists_of_splitSign hsplit
      obtain ⟨mantissa, hmantissa, rfl⟩ :=
        exists_of_splitMantissa hpieces (Bool.not_eq_true _ ▸ hne)
      exact .intro hsign hmantissa (exponentOfChars?_eq_some_iff.mp he)
  · rintro ⟨hsign, hmantissa, hexponent⟩
    rw [splitSign_append hsign (hmantissa.head?_noSign _)]
    dsimp only
    rw [splitMantissa_append hmantissa (ends_exponent hexponent)]
    dsimp only
    rw [hmantissa.not_isEmpty, if_neg Bool.false_ne_true,
      exponentOfChars?_eq_some_iff.mpr hexponent, Option.map_some]

end Decimal

section Ranges

variable {cs first last : List Char} {a b : Int}

/-- A spelled integer has no point. -/
theorem SpelledInteger.point_not_mem (h : SpelledInteger cs a) : '.' ∉ cs := by
  obtain ⟨hsign, hdigits⟩ := h
  rw [List.mem_append]
  rintro (hmem | hmem)
  · cases hsign <;> simp at hmem
  · exact absurd (hdigits.all _ hmem) (by decide)

/-- Just two spelled integers with two points between them are read. -/
theorem rangeOfChars?_eq_some_iff :
    Script.rangeOfChars? cs = some (a, b) ↔ ∃ first last, SpelledInteger first a ∧
      SpelledInteger last b ∧ cs = first ++ '.' :: '.' :: last := by
  constructor
  · intro h
    have hcs := List.takeWhile_append_dropWhile (p := fun c => decide (c ≠ '.')) (l := cs)
    unfold Script.rangeOfChars? at h
    split at h
    next tail htail =>
      obtain ⟨first, hfirst, h⟩ := Option.bind_eq_some_iff.mp h
      obtain ⟨last, hlast, h⟩ := Option.bind_eq_some_iff.mp h
      obtain ⟨rfl, rfl⟩ := Prod.mk.inj (Option.some.inj h)
      refine ⟨_, tail, signedInteger?_eq_some_iff.mp hfirst, signedInteger?_eq_some_iff.mp hlast, ?_⟩
      rw [← htail, hcs]
    next => cases h
  · rintro ⟨first, last, hfirst, hlast, rfl⟩
    -- The first integer ends in front of the first point.
    have hpoints : ∀ c ∈ first, decide (c ≠ '.') = true := by
      intro c hc
      rw [decide_eq_true_eq]
      rintro rfl
      exact hfirst.point_not_mem hc
    have hsplit := splitRun_append ('.' :: '.' :: last) hpoints (by simp)
    rw [splitRun, Prod.mk.injEq] at hsplit
    rw [Script.rangeOfChars?, hsplit.1, hsplit.2]
    show (signedInteger? first).bind _ = _
    rw [signedInteger?_eq_some_iff.mpr hfirst, signedInteger?_eq_some_iff.mpr hlast]
    rfl

theorem Mantissa.count_point_le {digits places : List Char} (h : Mantissa cs digits places) :
    cs.count '.' ≤ 1 := by
  have hnone : ∀ {ds : List Char}, Digits ds → ds.count '.' = 0 := by
    intro ds hds
    rw [List.count_eq_zero]
    intro hmem
    exact absurd (hds.all _ hmem) (by decide)
  cases h with
  | whole hdigits => simp only [hnone hdigits, Nat.zero_le]
  | point hdigits =>
    simp only [List.count_append, hnone hdigits, List.count_singleton_self, Nat.zero_add,
      Nat.le_refl]
  | both hdigits hplaces =>
    simp only [List.count_append, hnone hdigits, List.count_cons_self, hnone hplaces, Nat.zero_add,
      Nat.le_refl]
  | places hplaces => simp only [List.count_cons_self, hnone hplaces, Nat.zero_add, Nat.le_refl]

theorem Exponent.point_not_mem {e : Int} (h : Exponent cs e) : '.' ∉ cs := by
  cases h with
  | none => exact List.not_mem_nil
  | some he h =>
    rw [List.mem_cons]
    rintro (rfl | hmem)
    · exact absurd he (by decide)
    · exact h.point_not_mem hmem

theorem two_le_count_of_hasTwoPoints (h : Script.startsWithRange.hasTwoPoints cs = true) :
    2 ≤ cs.count '.' := by
  fun_induction Script.startsWithRange.hasTwoPoints cs with
  | case1 rest => simp
  | case2 c rest hne ih =>
    have := ih h
    rw [List.count_cons]
    omega
  | case3 => cases h

/-- A numeral has one point at most, so that it is never taken for a range. -/
theorem hasTwoPoints_spelled {d : Decimal} (h : Decimal.Spelled cs d) :
    Script.startsWithRange.hasTwoPoints cs = false := by
  rw [← Bool.not_eq_true]
  intro htwo
  have hcount := two_le_count_of_hasTwoPoints htwo
  obtain ⟨hsign, hmantissa, hexponent⟩ := h
  have hle := hmantissa.count_point_le
  have hnone := List.count_eq_zero.mpr hexponent.point_not_mem
  have hzero : ∀ {sign negative}, SpelledSign sign negative → sign.count '.' = 0 := by
    intro sign negative hsign
    cases hsign <;> rfl
  rw [List.count_append, List.count_append, hnone, hzero hsign] at hcount
  omega

theorem hasTwoPoints_append (first last : List Char) :
    Script.startsWithRange.hasTwoPoints (first ++ '.' :: '.' :: last) = true := by
  induction first with
  | nil => rfl
  | cons c first ih =>
    rw [List.cons_append, Script.startsWithRange.hasTwoPoints.eq_def]
    split
    · rfl
    next heq =>
      rw [← (List.cons.inj heq).2]
      exact ih
    next heq => cases heq

end Ranges

end Flipbook
