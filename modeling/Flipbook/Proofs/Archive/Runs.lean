import Flipbook.Proofs.Archive.Program
import Flipbook.Proofs.Traverse

/-!
# Marked numbers among the runs of digits of a text

Any text is a sequence of runs of digits with other characters between them. Whether a run is a
marked number is told by what stands in front of it and behind it, and never by digits. So a marked
number can be replaced by other digits, and is found there again, while the numbers with another
mark stay what they are.

## Main definitions

* `DigitRun`, `spell`: runs of digits, and the text that they make.
* `Marker.marked`, `Marker.setMarked`: reading and replacing the marked ones of some runs.
* `AlikeBehind`: runs that differ at most where they stand behind a given mark.

## Main results

* `exists_spell`: every text is made of runs;
* `Marker.numbers_spell`, `Marker.replace_spell`: reading and replacing in a text is that in its runs;
* `playerBounds_setPlayerBounds`: a program that is set to some frames plays them.
-/

namespace Flipbook

/-- A run of digits, with what stands between it and the next one. -/
structure DigitRun where
  digits : List Char
  gap : List Char

/-- The text that runs make. -/
def spell (runs : List DigitRun) : List Char :=
  runs.flatMap fun r => r.digits ++ r.gap

/-- Runs none of which could be longer: the next one begins behind other characters. -/
inductive MaximalRuns : List DigitRun → Prop
  | nil : MaximalRuns []
  | cons {r : DigitRun} {rest : List DigitRun} (hne : r.digits ≠ [])
      (hdigits : ∀ c ∈ r.digits, c.isDigit = true) (hgap : ∀ c ∈ r.gap, c.isDigit = false)
      (hparted : rest ≠ [] → r.gap ≠ []) (hrest : MaximalRuns rest) : MaximalRuns (r :: rest)

section Spelling

variable {r : DigitRun} {runs rest : List DigitRun} {gap : List Char}

theorem spell_cons (r : DigitRun) (rest : List DigitRun) :
    spell (r :: rest) = r.digits ++ (r.gap ++ spell rest) := by
  rw [spell, List.flatMap_cons, List.append_assoc]
  rfl

/-- Every text is made of runs of digits, behind some other characters. -/
theorem exists_spell (cs : List Char) :
    ∃ gap runs, (∀ c ∈ gap, c.isDigit = false) ∧ MaximalRuns runs ∧ cs = gap ++ spell runs := by
  induction cs with
  | nil => exact ⟨[], [], List.forall_mem_nil _, .nil, rfl⟩
  | cons c cs ih =>
    obtain ⟨gap, runs, hgap, hruns, rfl⟩ := ih
    cases hc : c.isDigit with
    | false => exact ⟨c :: gap, runs, List.forall_mem_cons.mpr ⟨hc, hgap⟩, hruns, rfl⟩
    | true =>
      -- A digit makes the run behind it longer, unless other characters stand between them.
      have hone : ∀ d ∈ [c], d.isDigit = true := List.forall_mem_singleton.mpr hc
      by_cases hempty : gap = []
      · subst hempty
        cases hruns with
        | nil =>
          refine ⟨[], [⟨[c], []⟩], List.forall_mem_nil _, ?_, rfl⟩
          exact .cons (List.cons_ne_nil _ _) hone (List.forall_mem_nil _) (fun h => absurd rfl h)
            .nil
        | @cons r rest hne hdigits hrest hparted hmore =>
          refine ⟨[], ⟨c :: r.digits, r.gap⟩ :: rest, List.forall_mem_nil _, ?_, ?_⟩
          · exact .cons (List.cons_ne_nil _ _) (List.forall_mem_cons.mpr ⟨hc, hdigits⟩) hrest
              hparted hmore
          · simp only [spell_cons, List.nil_append, List.cons_append]
      · refine ⟨[], ⟨[c], gap⟩ :: runs, List.forall_mem_nil _, ?_, ?_⟩
        · exact .cons (List.cons_ne_nil _ _) hone hgap (fun _ => hempty) hruns
        · simp only [spell_cons, List.nil_append, List.cons_append]

/-- Behind a run of digits stands no digit. -/
theorem MaximalRuns.head?_gap (h : MaximalRuns (r :: rest)) :
    ∀ c ∈ (r.gap ++ spell rest).head?, c.isDigit = false := by
  cases h with
  | cons hne hdigits hgap hparted hrest =>
    intro c hc
    by_cases hempty : r.gap = []
    · obtain rfl : rest = [] := by
        by_contra hmore
        exact hparted hmore hempty
      rw [hempty] at hc
      cases hc
    · rw [List.head?_append_of_ne_nil _ hempty] at hc
      exact hgap c (List.mem_of_head? hc)

/-- A text of runs begins with a digit. -/
theorem MaximalRuns.head?_spell (h : MaximalRuns runs) :
    ∀ c ∈ (spell runs).head?, c.isDigit = true := by
  intro c hc
  cases h with
  | nil => cases hc
  | cons hne hdigits =>
    rw [spell_cons, List.head?_append_of_ne_nil _ hne] at hc
    exact hdigits c (List.mem_of_head? hc)

/-- A text without digits at its start can only begin where there are no digits. -/
theorem dropStart?_gap {start : List Char} (hstart : ∀ c ∈ start, c.isDigit = false)
    (hruns : MaximalRuns runs) :
    dropStart? start (gap ++ spell runs) =
      if start <+: gap then some (gap.drop start.length ++ spell runs) else none := by
  induction start generalizing gap with
  | nil => rw [if_pos (List.nil_prefix)]; rfl
  | cons a start ih =>
    obtain ⟨ha, hrest⟩ := List.forall_mem_cons.mp hstart
    cases gap with
    | nil =>
      -- The text goes on where the gap ends, but there a digit follows.
      rw [if_neg (by simp), List.nil_append]
      cases htext : spell runs with
      | nil => rfl
      | cons c cs =>
        have hc : c.isDigit = true := hruns.head?_spell c (by rw [htext]; rfl)
        have hne : a ≠ c := by
          rintro rfl
          exact Bool.false_ne_true (ha.symm.trans hc)
        rw [dropStart?, if_neg hne]
    | cons c gap =>
      rw [List.cons_append, dropStart?, ih hrest]
      simp only [List.cons_prefix_cons, List.length_cons, List.drop_succ_cons]
      split <;> simp_all

end Spelling

namespace ProgramPart

/-- The number that a part is. -/
def number? : ProgramPart → Option (List Char)
  | char _ => none
  | marked _ number => some number

/-- The text of a part, with another text in the place of a marked number. -/
def withText (m : Marker) (text : List Char) : ProgramPart → List Char
  | char c => [c]
  | marked line _ => line ++ m.before ++ text ++ m.after

theorem filterMap_number?_char (cs : List Char) : (cs.map char).filterMap number? = [] := by
  rw [List.filterMap_map]
  exact List.filterMap_eq_nil_iff.mpr fun _ _ => rfl

theorem flatMap_withText_char (m : Marker) (text cs : List Char) :
    (cs.map char).flatMap (withText m text) = cs := by
  rw [List.flatMap_map]
  exact List.flatMap_singleton' cs

end ProgramPart

namespace Marker

/-- The marks of numbers that hold no digits themselves. -/
structure NoDigits (m : Marker) : Prop where
  before : ∀ c ∈ m.before, c.isDigit = false
  after : ∀ c ∈ m.after, c.isDigit = false

/-- The second one of two neighbouring runs is a marked number, the first one its line number. -/
def Marks (m : Marker) (line number : DigitRun) : Prop :=
  line.gap = m.before ∧ m.after <+: number.gap

instance (m : Marker) (line number : DigitRun) : Decidable (m.Marks line number) :=
  inferInstanceAs (Decidable (_ ∧ _))

/-- The marked numbers among some runs. -/
def marked (m : Marker) : List DigitRun → List (List Char)
  | line :: number :: rest =>
    if m.Marks line number then number.digits :: m.marked rest else m.marked (number :: rest)
  | [_] => []
  | [] => []

/-- Runs with another text in the place of each marked number. -/
def setMarked (m : Marker) (text : List Char) : List DigitRun → List DigitRun
  | line :: number :: rest =>
    if m.Marks line number then line :: ⟨text, number.gap⟩ :: m.setMarked text rest
    else line :: m.setMarked text (number :: rest)
  | [r] => [r]
  | [] => []

/-- The parts of the text that runs make. -/
def partsIn (m : Marker) : List DigitRun → List ProgramPart
  | line :: number :: rest =>
    if m.Marks line number then
      .marked line.digits number.digits ::
        ((number.gap.drop m.after.length).map .char ++ m.partsIn rest)
    else (line.digits ++ line.gap).map .char ++ m.partsIn (number :: rest)
  | [r] => (r.digits ++ r.gap).map .char
  | [] => []

variable {m : Marker} {r line number : DigitRun} {runs rest : List DigitRun}
  {gap cs text : List Char}

section Parts

/-- Other characters than digits are parts of their own. -/
theorem parts_gap (hgap : ∀ c ∈ gap, c.isDigit = false) (cs : List Char) :
    m.parts (gap ++ cs) = gap.map .char ++ m.parts cs := by
  induction gap with
  | nil => rfl
  | cons c gap ih =>
    obtain ⟨hc, hrest⟩ := List.forall_mem_cons.mp hgap
    rw [List.cons_append, parts_of_none (splitMarked?_of_not_digit hc), ih hrest]
    rfl

/-- A run with the marks around the next one is the line number of a marked number. -/
theorem splitMarked?_of_marks (hruns : MaximalRuns (line :: number :: rest))
    (h : m.Marks line number) :
    m.splitMarked? (spell (line :: number :: rest)) =
      some (line.digits, number.digits, number.gap.drop m.after.length ++ spell rest) := by
  obtain ⟨hbefore, tail, htail⟩ := h
  have hline := hruns.head?_gap
  cases hruns with
  | cons hne hdigits hgap hparted hmore =>
    have hnumber := hmore.head?_gap
    cases hmore with
    | cons hne' hdigits' hgap' hparted' hrest =>
      rw [spell_cons, hbefore, ← htail, List.append_assoc] at hline
      rw [spell_cons, spell_cons, hbefore, ← htail, List.append_assoc]
      rw [← htail, List.append_assoc] at hnumber
      rw [List.drop_left]
      exact splitMarked?_marked hne hdigits hline hne' hdigits' hnumber

/-- Any other run begins no marked number. -/
theorem splitMarked?_of_not_marks (hm : m.NoDigits) (hruns : MaximalRuns (line :: rest))
    (h : ∀ number ∈ rest.head?, ¬ m.Marks line number) :
    m.splitMarked? (spell (line :: rest)) = none := by
  have hline := hruns.head?_gap
  cases hruns with
  | cons hne hdigits hgap hparted hrest =>
    rw [spell_cons, splitMarked?, splitRun_append _ hdigits hline]
    dsimp only
    rw [if_neg (by simp [hne]), dropStart?_gap hm.before hrest]
    split_ifs with hstart
    · obtain ⟨tail, htail⟩ := hstart
      dsimp only
      rw [← htail, List.drop_left]
      cases tail with
      | cons c tail =>
        -- What stands behind the mark is no digit.
        have hc : c.isDigit = false := hgap c (by simp [← htail])
        rw [splitRun_of_head (by simpa using hc)]
        rfl
      | nil =>
        rw [List.append_nil] at htail
        cases hrest with
        | nil => rfl
        | @cons number more hne' hdigits' hgap' hparted' hmore =>
          have hnumber := (MaximalRuns.cons hne' hdigits' hgap' hparted' hmore).head?_gap
          have hafter : ¬ m.after <+: number.gap := fun hafter =>
            h number rfl ⟨htail.symm, hafter⟩
          rw [List.nil_append, spell_cons, splitRun_append _ hdigits' hnumber]
          dsimp only
          rw [if_neg (by simp [hne']), dropStart?_gap hm.after hmore, if_neg hafter]
          rfl
    · rfl

/-- The characters of a run that is no line number are parts of their own. -/
theorem parts_of_not_marks (hm : m.NoDigits) (hruns : MaximalRuns (line :: rest))
    (h : ∀ number ∈ rest.head?, ¬ m.Marks line number) :
    m.parts (spell (line :: rest)) =
      (line.digits ++ line.gap).map .char ++ m.parts (spell rest) := by
  obtain ⟨digits, gap⟩ := line
  -- A run without its first digits is a run again, as long as a digit is left.
  induction digits with
  | nil =>
    cases hruns with
    | cons hne => exact absurd rfl hne
  | cons c digits ih =>
    have hnone := splitMarked?_of_not_marks hm hruns h
    rw [spell_cons, List.cons_append] at hnone
    rw [spell_cons, List.cons_append, parts_of_none hnone]
    cases hruns with
    | cons hne hdigits hgap hparted hrest =>
      by_cases hlast : digits = []
      · subst hlast
        rw [List.nil_append, parts_gap hgap]
        rfl
      · have hshorter : MaximalRuns (⟨digits, gap⟩ :: rest) :=
          .cons hlast (List.forall_mem_cons.mp hdigits).2 hgap hparted hrest
        have hparts := ih hshorter h
        rw [spell_cons] at hparts
        rw [hparts]
        rfl

end Parts

section Text

/-- The parts of a text of runs. -/
theorem parts_spell (hm : m.NoDigits) (hruns : MaximalRuns runs) :
    m.parts (spell runs) = m.partsIn runs := by
  -- Two runs that enclose a marked number, two that do not, a single run, none.
  fun_induction m.partsIn runs with
  | case1 line number rest hmarks ih =>
    have hsplit := splitMarked?_of_marks hruns hmarks
    cases hruns with
    | cons hne hdigits hgap hparted hmore =>
      cases hmore with
      | cons hne' hdigits' hgap' hparted' hrest =>
        have hbehind : ∀ c ∈ number.gap.drop m.after.length, c.isDigit = false :=
          fun c hc => hgap' c (List.mem_of_mem_drop hc)
        rw [parts_of_some hsplit, parts_gap hbehind, ih hrest]
  | case2 line number rest hmarks ih =>
    have hparts := parts_of_not_marks hm hruns (by simpa using hmarks)
    cases hruns with
    | cons hne hdigits hgap hparted hmore => rw [hparts, ih hmore]
  | case3 r => rw [parts_of_not_marks hm hruns (by simp), spell, List.flatMap_nil, parts_nil,
      List.append_nil]
  | case4 => rfl

theorem numbers_eq_filterMap (cs : List Char) :
    m.numbers cs = (m.parts cs).filterMap ProgramPart.number? :=
  rfl

theorem replace_eq_flatMap (text cs : List Char) :
    m.replace text cs = (m.parts cs).flatMap (ProgramPart.withText m text) :=
  rfl

/-- The marked numbers of a text are those among its runs. -/
theorem numbers_spell (hm : m.NoDigits) (hgap : ∀ c ∈ gap, c.isDigit = false)
    (hruns : MaximalRuns runs) : m.numbers (gap ++ spell runs) = m.marked runs := by
  rw [numbers_eq_filterMap, parts_gap hgap, parts_spell hm hruns, List.filterMap_append,
    ProgramPart.filterMap_number?_char, List.nil_append]
  clear hruns
  fun_induction m.partsIn runs with
  | case1 line number rest hmarks ih =>
    show number.digits :: List.filterMap _ _ = _
    rw [List.filterMap_append, ProgramPart.filterMap_number?_char, List.nil_append, ih, marked,
      if_pos hmarks]
  | case2 line number rest hmarks ih =>
    rw [List.filterMap_append, ProgramPart.filterMap_number?_char, List.nil_append, ih, marked,
      if_neg hmarks]
  | case3 r => exact ProgramPart.filterMap_number?_char _
  | case4 => rfl

/-- Replacing the marked numbers of a text is replacing those among its runs. -/
theorem replace_spell (hm : m.NoDigits) (hgap : ∀ c ∈ gap, c.isDigit = false)
    (hruns : MaximalRuns runs) (text : List Char) :
    m.replace text (gap ++ spell runs) = gap ++ spell (m.setMarked text runs) := by
  rw [replace_eq_flatMap, parts_gap hgap, parts_spell hm hruns, List.flatMap_append,
    ProgramPart.flatMap_withText_char]
  clear hruns
  congr 1
  fun_induction m.partsIn runs with
  | case1 line number rest hmarks ih =>
    rw [List.flatMap_cons, List.flatMap_append, ProgramPart.flatMap_withText_char, ih, setMarked,
      if_pos hmarks]
    obtain ⟨hbefore, tail, htail⟩ := hmarks
    simp only [ProgramPart.withText, spell_cons, hbefore, ← htail, List.drop_left,
      List.append_assoc]
  | case2 line number rest hmarks ih =>
    rw [List.flatMap_append, ProgramPart.flatMap_withText_char, ih, setMarked, if_neg hmarks,
      spell_cons, List.append_assoc]
  | case3 r =>
    rw [ProgramPart.flatMap_withText_char, setMarked, spell_cons, spell, List.flatMap_nil,
      List.append_nil]
  | case4 => rfl

end Text

section Runs

variable {m' : Marker} {front mark : List Char} {more : List DigitRun}

/-- The first run is never replaced. -/
theorem exists_setMarked_cons (text : List Char) (r : DigitRun) (rest : List DigitRun) :
    ∃ more, m.setMarked text (r :: rest) = r :: more := by
  cases rest with
  | nil => exact ⟨[], rfl⟩
  | cons number rest =>
    rw [setMarked]
    split
    · exact ⟨_, rfl⟩
    · exact ⟨_, rfl⟩

theorem setMarked_ne_nil (h : m.setMarked text runs ≠ []) : runs ≠ [] := by
  rintro rfl
  exact h rfl

/-- Runs with digits in the place of marked numbers are runs again. -/
theorem maximal_setMarked (hne : text ≠ []) (hdigits : ∀ c ∈ text, c.isDigit = true)
    (hruns : MaximalRuns runs) : MaximalRuns (m.setMarked text runs) := by
  fun_induction m.setMarked text runs with
  | case1 line number rest hmarks ih =>
    cases hruns with
    | cons hne' hdigits' hgap hparted hmore =>
      cases hmore with
      | cons hne'' hdigits'' hgap' hparted' hrest =>
        refine .cons hne' hdigits' hgap (fun _ => hparted (List.cons_ne_nil _ _)) ?_
        exact .cons hne hdigits hgap' (fun h => hparted' (setMarked_ne_nil h)) (ih hrest)
  | case2 line number rest hmarks ih =>
    cases hruns with
    | cons hne' hdigits' hgap hparted hmore =>
      exact .cons hne' hdigits' hgap (fun _ => hparted (List.cons_ne_nil _ _)) (ih hmore)
  | case3 r => exact hruns
  | case4 => exact hruns

/-- What is put into the marked places is read there. -/
theorem marked_setMarked (text : List Char) (runs : List DigitRun) :
    m.marked (m.setMarked text runs) = (m.marked runs).map fun _ => text := by
  fun_induction m.setMarked text runs with
  | case1 line number rest hmarks ih =>
    have hnew : m.Marks line ⟨text, number.gap⟩ := hmarks
    rw [marked, if_pos hnew, ih, marked, if_pos hmarks, List.map_cons]
  | case2 line number rest hmarks ih =>
    obtain ⟨more, hmore⟩ := m.exists_setMarked_cons text number rest
    rw [hmore] at ih ⊢
    rw [marked, if_neg hmarks, ih, marked, if_neg hmarks]
  | case3 r => rfl
  | case4 => rfl

/-- Runs that agree but for the digits of those that stand behind a mark. The first of them stands
behind `front`. -/
inductive AlikeBehind (mark : List Char) :
    List Char → List DigitRun → List DigitRun → Prop
  | nil {front : List Char} : AlikeBehind mark front [] []
  | cons {front digits : List Char} {r : DigitRun} {rest more : List DigitRun}
      (hdigits : front ≠ mark → r.digits = digits) (hrest : AlikeBehind mark r.gap rest more) :
      AlikeBehind mark front (r :: rest) (⟨digits, r.gap⟩ :: more)

/-- Replacing changes only what stands behind the mark. -/
theorem alikeBehind_setMarked (text front : List Char) (runs : List DigitRun) :
    AlikeBehind m.before front runs (m.setMarked text runs) := by
  fun_induction m.setMarked text runs generalizing front with
  | case1 line number rest hmarks ih =>
    refine .cons (fun _ => rfl) (.cons (fun hne => absurd hmarks.1 hne) (ih number.gap))
  | case2 line number rest hmarks ih => exact .cons (fun _ => rfl) (ih line.gap)
  | case3 r => exact .cons (fun _ => rfl) .nil
  | case4 => exact .nil

/-- Numbers with another mark are told by other runs. -/
theorem marked_of_alikeBehind (hne : m.before ≠ mark) (h : AlikeBehind mark front runs more) :
    m.marked more = m.marked runs := by
  fun_induction m.marked runs generalizing front more with
  | case1 line number rest hmarks ih =>
    cases h with
    | cons _ h =>
      cases h with
      | @cons _ digits _ _ more hdigits h =>
        -- The number does not stand behind the mark, and so its digits are the same.
        have hsame : number.digits = digits := hdigits (by rwa [hmarks.1])
        rw [marked, if_pos ⟨hmarks.1, hmarks.2⟩, ih h, hsame]
  | case2 line number rest hmarks ih =>
    cases h with
    | cons _ h =>
      have hrest := ih h
      cases h with
      | cons _ h => rw [marked, if_neg fun h => hmarks ⟨h.1, h.2⟩, hrest]
  | case3 r =>
    cases h with
    | cons _ h =>
      cases h
      rfl
  | case4 =>
    cases h
    rfl

/-- Replacing brings in no other characters than those of the new text. -/
theorem mem_spell_setMarked {c : Char} (h : c ∈ spell (m.setMarked text runs)) :
    c ∈ spell runs ∨ c ∈ text := by
  fun_induction m.setMarked text runs with
  | case1 line number rest hmarks ih =>
    simp only [spell_cons, List.mem_append] at h ⊢
    grind
  | case2 line number rest hmarks ih =>
    rw [spell_cons] at h
    rw [spell_cons line]
    simp only [List.mem_append] at h ⊢
    grind
  | case3 r => exact .inl h
  | case4 => exact .inl h

end Runs

section Replacing

variable {m' : Marker}

/-- Digits that replace the marked numbers of a text are its marked numbers then. -/
theorem numbers_replace (hm : m.NoDigits) (hne : text ≠ [])
    (hdigits : ∀ c ∈ text, c.isDigit = true) (cs : List Char) :
    m.numbers (m.replace text cs) = (m.numbers cs).map fun _ => text := by
  obtain ⟨gap, runs, hgap, hruns, rfl⟩ := exists_spell cs
  have hset := maximal_setMarked (m := m) hne hdigits hruns
  rw [replace_spell hm hgap hruns, numbers_spell hm hgap hset, numbers_spell hm hgap hruns,
    marked_setMarked]

/-- Numbers with another mark stay what they are. -/
theorem numbers_replace_of_ne (hm : m.NoDigits) (hm' : m'.NoDigits) (hmark : m'.before ≠ m.before)
    (hne : text ≠ []) (hdigits : ∀ c ∈ text, c.isDigit = true) (cs : List Char) :
    m'.numbers (m.replace text cs) = m'.numbers cs := by
  obtain ⟨gap, runs, hgap, hruns, rfl⟩ := exists_spell cs
  have hset := maximal_setMarked (m := m) hne hdigits hruns
  rw [replace_spell hm hgap hruns, numbers_spell hm' hgap hset, numbers_spell hm' hgap hruns]
  exact marked_of_alikeBehind hmark (alikeBehind_setMarked text gap runs)

theorem mem_replace (hm : m.NoDigits) {c : Char} (h : c ∈ m.replace text cs) :
    c ∈ cs ∨ c ∈ text := by
  obtain ⟨gap, runs, hgap, hruns, rfl⟩ := exists_spell cs
  rw [replace_spell hm hgap hruns, List.mem_append] at h
  rw [List.mem_append, or_assoc]
  exact h.imp_right mem_spell_setMarked

end Replacing

end Marker

section Programs

variable {program set : List UInt8} {text : List Char} {number : List Char} {first last : Nat}

/-- The marks of both numbers hold no digits. -/
theorem PlayerBound.marker_noDigits (bound : PlayerBound) : bound.marker.NoDigits := by
  cases bound with
  | first => exact ⟨forall_mem_of_all (by decide), List.forall_mem_nil _⟩
  | last => exact ⟨forall_mem_of_all (by decide), forall_mem_of_all (by decide)⟩

theorem markedNumber_eq_ok_iff {bound : PlayerBound} :
    markedNumber bound text = .ok number ↔ bound.marker.numbers text = [number] := by
  rw [markedNumber]
  split
  next found heq => simp [heq]
  next hother =>
    constructor
    · intro h
      cases h
    · exact fun h => absurd h (hother number)

/-- The text of any bytes has characters of one byte. -/
theorem oneByte_decodeLatin1 (bytes : List UInt8) : OneByte (decodeLatin1 bytes) := by
  rw [decodeLatin1, OneByte, List.forall_mem_map]
  intro b _
  have hlt : b.toNat < 256 := b.toNat_lt
  have hvalid : b.toNat.isValidChar := .inl (by omega)
  rw [Char.ofNat, dif_pos hvalid]
  exact Nat.lt_of_le_of_lt (Nat.le_of_eq (UInt32.toNat_ofNatLT ..)) hlt

/-- Replacing one of the numbers leaves the other one. -/
theorem numbers_replace_marker (bound other : PlayerBound) (n : Nat) (text : List Char) :
    other.marker.numbers (bound.marker.replace (Nat.toDigits 10 n) text) =
      if other = bound then (other.marker.numbers text).map fun _ => Nat.toDigits 10 n
      else other.marker.numbers text := by
  split_ifs with hbound
  · rw [hbound]
    exact Marker.numbers_replace bound.marker_noDigits Nat.toDigits_ne_nil (isDigit_toDigits n) text
  · have hmark : other.marker.before ≠ bound.marker.before := by
      revert hbound
      cases bound <;> cases other <;> decide
    exact Marker.numbers_replace_of_ne bound.marker_noDigits other.marker_noDigits hmark
      Nat.toDigits_ne_nil (isDigit_toDigits n) text

theorem oneByte_replace_marker (bound : PlayerBound) (n : Nat) (h : OneByte text) :
    OneByte (bound.marker.replace (Nat.toDigits 10 n) text) := by
  intro c hc
  rcases Marker.mem_replace bound.marker_noDigits hc with hold | hnew
  · exact h c hold
  · have hdigit := toNat_of_isDigit (isDigit_toDigits n c hnew)
    omega

/-- A program that is set to some frames plays these frames, whatever else it does. -/
theorem playerBounds_setPlayerBounds (hpos : 0 < first) (hfirst : first ≤ Binary64.exactBound)
    (hlast : last < Binary64.exactBound)
    (h : setPlayerBounds program ⟨.ofNat first, .ofNat last⟩ = .ok set) :
    playerBounds set = .ok ⟨.ofNat first, .ofNat last⟩ := by
  have hbefore : first - 1 < Binary64.exactBound := by omega
  have hwritten : Binary64.ofNat first - 1 = .ofNat (first - 1) :=
    written_first (.ofNat last) hpos hfirst
  simp only [setPlayerBounds, bind_eq_ok_iff, markedNumber_eq_ok_iff] at h
  obtain ⟨oldFirst, holdFirst, oldLast, holdLast, heq⟩ := h
  obtain rfl := Except.ok.inj heq
  rw [hwritten, Binary64.text_ofNat hbefore, Binary64.text_ofNat hlast]
  -- The number before the first frame is replaced in the program, the last one in what this gives.
  have hbytes := oneByte_replace_marker .last last
    (oneByte_replace_marker .first (first - 1) (oneByte_decodeLatin1 program))
  rw [playerBounds, decodeLatin1_encodeLatin1 hbytes]
  simp only [markedNumber, numbers_replace_marker, holdFirst, holdLast]
  show Except.ok (⟨digitsNumber _ + 1, digitsNumber _⟩ : FrameBounds) = _
  rw [digitsNumber_digits (Nat.le_of_lt hbefore), digitsNumber_digits (Nat.le_of_lt hlast),
    Binary64.ofNat_add_one hbefore, Nat.sub_add_cancel hpos]

end Programs

end Flipbook
