import Flipbook.Archive.Player
import Flipbook.Proofs.Archive.Characters

/-!
# Marked numbers, line by line

A marked number lies within one line, so the parts of a program are those of its lines. What is read
from a program, and what is replaced in it, can therefore be settled for each line alone.

## Main definitions

* `Marker.OneLine`: the marks that do not reach beyond a line.
* `Marker.Free`: the texts without a marked number.

## Main results

* `Marker.parts_append_break`: the parts of a line, the line end, and the parts of what follows;
* `Marker.numbers_lines`, `Marker.replace_lines`: reading and replacing line by line.
-/

namespace Flipbook

/-- A text that starts in a given way consists of the start and the rest. -/
theorem eq_append_of_dropStart? {start cs rest : List Char}
    (h : dropStart? start cs = some rest) : cs = start ++ rest := by
  induction start generalizing cs with
  | nil => exact Option.some.inj h
  | cons a start ih =>
    cases cs with
    | nil => cases h
    | cons c cs =>
      rw [dropStart?] at h
      split at h
      next heq => rw [← heq, ih h, List.cons_append]
      next => cases h

/-- A text without the character behind it starts in the same way. -/
theorem dropStart?_append_break {start cs rest : List Char} {b : Char} (hb : b ∉ start) :
    dropStart? start (cs ++ b :: rest) = (dropStart? start cs).map (· ++ b :: rest) := by
  induction start generalizing cs with
  | nil => rfl
  | cons a start ih =>
    rw [List.mem_cons, not_or] at hb
    cases cs with
    | nil => simp [dropStart?, Ne.symm hb.1]
    | cons c cs =>
      rw [List.cons_append, dropStart?, dropStart?, ih hb.2]
      split <;> rfl

/-- A run does not reach beyond a character of another kind. -/
theorem splitRun_append_break {p : Char → Bool} {cs rest : List Char} {b : Char}
    (hb : p b = false) :
    splitRun p (cs ++ b :: rest) = ((splitRun p cs).1, (splitRun p cs).2 ++ b :: rest) := by
  induction cs with
  | nil => simp [splitRun, hb]
  | cons c cs ih =>
    simp only [splitRun, Prod.mk.injEq] at ih
    cases hc : p c <;> simp [splitRun, hc, ih.1, ih.2]

namespace Marker

variable {m : Marker} {cs rest line number : List Char} {c b : Char}

/-- A marked number and what stands around it make up the text. -/
theorem eq_of_splitMarked? (h : m.splitMarked? cs = some (line, number, rest)) :
    line ≠ [] ∧ cs = line ++ (m.before ++ (number ++ (m.after ++ rest))) := by
  rw [splitMarked?] at h
  dsimp only [splitRun] at h
  split at h
  · cases h
  next hline =>
    split at h
    · cases h
    next body hbody =>
      split at h
      · cases h
      · obtain ⟨tail, htail, heq⟩ := Option.map_eq_some_iff.mp h
        rw [Prod.mk.injEq, Prod.mk.injEq] at heq
        obtain ⟨rfl, rfl, rfl⟩ := heq
        refine ⟨fun h0 => hline (by rw [h0]; rfl), ?_⟩
        rw [← eq_append_of_dropStart? htail, List.takeWhile_append_dropWhile,
          ← eq_append_of_dropStart? hbody, List.takeWhile_append_dropWhile]

/-- What is left behind a marked number is shorter than the text. -/
theorem length_of_splitMarked? (h : m.splitMarked? cs = some (line, number, rest)) :
    rest.length < cs.length := by
  obtain ⟨hne, rfl⟩ := eq_of_splitMarked? h
  have hpos := List.length_pos_iff.mpr hne
  simp only [List.length_append]
  omega

/-- Enough fuel finds all parts. -/
theorem partsOf_eq_parts {fuel : Nat} (h : cs.length ≤ fuel) : m.partsOf fuel cs = m.parts cs := by
  -- Parts are read from shorter and shorter texts, so the induction is on the fuel for all texts.
  have hfuel : ∀ (fuel fuel' : Nat) (cs : List Char), cs.length ≤ fuel → cs.length ≤ fuel' →
      m.partsOf fuel cs = m.partsOf fuel' cs := by
    intro fuel
    induction fuel with
    | zero =>
      intro fuel' cs hle _
      rw [List.length_eq_zero_iff.mp (Nat.le_zero.mp hle)]
      cases fuel' <;> rfl
    | succ fuel ih =>
      intro fuel' cs hle hle'
      cases cs with
      | nil => cases fuel' <;> rfl
      | cons c cs =>
        cases fuel' with
        | zero => simp at hle'
        | succ fuel' =>
          rw [partsOf, partsOf]
          rw [List.length_cons] at hle hle'
          split
          next line number rest hmarked =>
            have hlt := length_of_splitMarked? hmarked
            rw [List.length_cons] at hlt
            rw [ih fuel' rest (by omega) (by omega)]
          next => rw [ih fuel' cs (by omega) (by omega)]
  exact hfuel fuel cs.length cs h (Nat.le_refl _)

/-- An empty text has no parts. -/
@[simp]
theorem parts_nil : m.parts [] = [] := rfl

/-- A marked number at the start is the first part. -/
theorem parts_of_some (h : m.splitMarked? cs = some (line, number, rest)) :
    m.parts cs = .marked line number :: m.parts rest := by
  have hlt := length_of_splitMarked? h
  cases cs with
  | nil => simp at hlt
  | cons c cs =>
    rw [List.length_cons] at hlt
    rw [parts, List.length_cons, partsOf, h]
    dsimp only
    rw [partsOf_eq_parts (by omega)]

/-- Without a marked number at the start the first character is the first part. -/
theorem parts_of_none (h : m.splitMarked? (c :: cs) = none) :
    m.parts (c :: cs) = .char c :: m.parts cs := by
  rw [parts, List.length_cons, partsOf, h]
  dsimp only
  rw [partsOf_eq_parts (Nat.le_refl _)]

/-- A marked number starts with a digit. -/
theorem splitMarked?_of_not_digit (h : c.isDigit = false) : m.splitMarked? (c :: cs) = none := by
  rw [splitMarked?, splitRun_of_head (by simpa using h)]
  rfl

/-- The marks of numbers that do not reach beyond a line. -/
structure OneLine (m : Marker) : Prop where
  /-- The number is in the line of its line number. -/
  before : '\r' ∉ m.before
  /-- The mark behind the number is in the same line. -/
  after : '\r' ∉ m.after

/-- A line has the marked number at its start whatever follows it. -/
theorem splitMarked?_append_break (hm : m.OneLine) :
    m.splitMarked? (cs ++ '\r' :: rest) =
      (m.splitMarked? cs).map fun p => (p.1, p.2.1, p.2.2 ++ '\r' :: rest) := by
  rw [splitMarked?, splitMarked?, splitRun_append_break (by decide)]
  dsimp only
  split
  · rfl
  · rw [dropStart?_append_break hm.before]
    cases dropStart? m.before (splitRun Char.isDigit cs).2 with
    | none => rfl
    | some body =>
      dsimp only [Option.map_some]
      rw [splitRun_append_break (by decide)]
      dsimp only
      split
      · rfl
      · rw [dropStart?_append_break hm.after, Option.map_map, Option.map_map]
        rfl

/-- The parts of a program are those of its first line, the line end, and those of the rest. -/
theorem parts_append_break (hm : m.OneLine) (cs rest : List Char) :
    m.parts (cs ++ '\r' :: rest) = m.parts cs ++ .char '\r' :: m.parts rest := by
  induction hn : cs.length using Nat.strongRecOn generalizing cs with
  | ind n ih =>
    have hmarked : m.splitMarked? (cs ++ '\r' :: rest) = _ := splitMarked?_append_break hm
    cases hcs : m.splitMarked? cs with
    | some p =>
      obtain ⟨line, number, tail⟩ := p
      rw [hcs] at hmarked
      have hlt := length_of_splitMarked? hcs
      rw [parts_of_some hmarked, parts_of_some hcs, ih tail.length (by omega) tail rfl]
      rfl
    | none =>
      rw [hcs] at hmarked
      cases cs with
      | nil => exact parts_of_none hmarked
      | cons c cs =>
        rw [List.length_cons] at hn
        rw [List.cons_append] at hmarked ⊢
        rw [parts_of_none hmarked, parts_of_none hcs,
          ih cs.length (by omega) cs rfl]
        rfl

/-- The marked numbers of a program are those of its lines. -/
theorem numbers_lines (hm : m.OneLine) (lines : List (List Char)) :
    m.numbers (['\r'].intercalate lines) = lines.flatMap m.numbers := by
  induction lines with
  | nil => rfl
  | cons line lines ih =>
    cases lines with
    | nil => rw [List.intercalate_singleton, List.flatMap_singleton]
    | cons next lines =>
      rw [List.intercalate_cons_cons, List.append_assoc, List.singleton_append, numbers,
        parts_append_break hm, List.filterMap_append, List.flatMap_cons, ← ih]
      rfl

/-- In each line of a program the marked numbers are replaced alone. -/
theorem replace_lines (hm : m.OneLine) (text : List Char) (lines : List (List Char)) :
    m.replace text (['\r'].intercalate lines) =
      ['\r'].intercalate (lines.map (m.replace text)) := by
  induction lines with
  | nil => rfl
  | cons line lines ih =>
    cases lines with
    | nil => rw [List.map_singleton, List.intercalate_singleton, List.intercalate_singleton]
    | cons next lines =>
      rw [List.map_cons] at ih
      rw [List.map_cons, List.map_cons, List.intercalate_cons_cons, List.intercalate_cons_cons,
        List.append_assoc, List.singleton_append, replace, parts_append_break hm,
        List.flatMap_append, List.flatMap_cons, ← replace, ← replace, ih, List.append_assoc]

/-- A text without a marked number. -/
def Free (m : Marker) (cs : List Char) : Prop :=
  m.parts cs = cs.map .char

instance (m : Marker) (cs : List Char) : Decidable (m.Free cs) :=
  inferInstanceAs (Decidable (m.parts cs = cs.map .char))

/-- Nothing is read from a text without a marked number. -/
theorem Free.numbers_eq (h : m.Free cs) : m.numbers cs = [] := by
  rw [numbers, h, List.filterMap_map]
  exact List.filterMap_eq_nil_iff.mpr fun _ _ => rfl

/-- Nothing is replaced in a text without a marked number. -/
theorem Free.replace_eq (h : m.Free cs) (text : List Char) : m.replace text cs = cs := by
  rw [replace, h, List.flatMap_map]
  exact List.flatMap_singleton' cs

/-- A text is free of marked numbers if there is none at its start and none behind. -/
theorem free_cons (h : m.splitMarked? (c :: cs) = none) (hcs : m.Free cs) : m.Free (c :: cs) := by
  rw [Free, parts_of_none h, hcs, List.map_cons]

/-- A text that lacks a character of the mark is free of marked numbers. -/
theorem free_of_not_mem (hb : b ∈ m.before) (h : b ∉ cs) : m.Free cs := by
  induction cs with
  | nil => rfl
  | cons c cs ih =>
    refine free_cons ?_ (ih fun hmem => h (List.mem_cons_of_mem c hmem))
    cases hmarked : m.splitMarked? (c :: cs) with
    | none => rfl
    | some p =>
      -- A marked number would bring the whole mark with it.
      obtain ⟨-, heq⟩ := eq_of_splitMarked? hmarked
      refine absurd ?_ h
      rw [heq]
      exact List.mem_append_right _ (List.mem_append_left _ hb)

end Marker

end Flipbook
