import Mathlib.Data.List.Induction
import Flipbook.Proofs.Archive.Runs

/-!
# The frames of a program as two fields of it

The two numbers of a player program are fields that can be written over and over. Which runs of
digits they are is told by what stands between the runs, and that is never changed: so the second
writing goes to the same places as the first, and the places of the two numbers are different ones.

## Main definitions

* `Marker.places`: which runs are marked numbers, told from what stands between the runs.
* `Surroundings`: what a text is apart from the two numbers.
* `FrameBounds.Exact`: frames whose numbers a program tells exactly.

## Main results

* `Marker.setMarked_eq_mapIdx`: the marked numbers are replaced at their places;
* `Marker.replace_replace`, `Marker.replace_comm`: replacing again, and replacing others;
* `exists_surroundings`: replacing both numbers leaves what stands around them;
* `playerBounds_field`: reading and writing the frames of a program.
-/

namespace Flipbook

/-- A run with other digits. -/
def DigitRun.withDigits (text : List Char) (r : DigitRun) : DigitRun :=
  ⟨text, r.gap⟩

namespace Marker

/-- The places of the marked numbers among some runs, told from what stands behind each run. -/
def places (m : Marker) : List (List Char) → List Nat
  | line :: number :: rest =>
    if line = m.before ∧ m.after <+: number then 1 :: (m.places rest).map (· + 2)
    else (m.places (number :: rest)).map (· + 1)
  | [_] => []
  | [] => []

variable {m m' : Marker} {text text' : List Char} {runs : List DigitRun} {gaps : List (List Char)}
  {i j : Nat}

section Places

/-- In front of a marked number stands its mark. -/
theorem exists_of_mem_places (h : i ∈ m.places gaps) :
    ∃ k, i = k + 1 ∧ i < gaps.length ∧ gaps[k]? = some m.before := by
  fun_induction m.places gaps generalizing i with
  | case1 line number rest hmarks ih =>
    rcases List.mem_cons.mp h with rfl | h
    · exact ⟨0, rfl, by simp, by simp [hmarks.1]⟩
    · obtain ⟨place, hplace, rfl⟩ := List.mem_map.mp h
      obtain ⟨k, rfl, hlt, hgap⟩ := ih hplace
      exact ⟨k + 2, rfl, by simp only [List.length_cons]; omega, by simpa using hgap⟩
  | case2 line number rest hmarks ih =>
    obtain ⟨place, hplace, rfl⟩ := List.mem_map.mp h
    obtain ⟨k, rfl, hlt, hgap⟩ := ih hplace
    exact ⟨k + 1, rfl, by simpa using hlt, by simpa using hgap⟩
  | case3 => cases h
  | case4 => cases h

/-- Numbers with different marks are at different places. -/
theorem not_mem_places_of_ne (hne : m.before ≠ m'.before) (h : i ∈ m.places gaps) :
    i ∉ m'.places gaps := by
  intro h'
  obtain ⟨k, rfl, -, hgap⟩ := exists_of_mem_places h
  obtain ⟨k', heq, -, hgap'⟩ := exists_of_mem_places h'
  obtain rfl : k = k' := by omega
  exact hne (Option.some.inj (hgap.symm.trans hgap'))

/-- Replacing changes the digits of the runs at the places of the marked numbers. -/
theorem setMarked_eq_mapIdx (text : List Char) (runs : List DigitRun) :
    m.setMarked text runs = runs.mapIdx fun i r =>
      if i ∈ m.places (runs.map DigitRun.gap) then r.withDigits text else r := by
  -- The places are found by the same steps as the marked numbers.
  fun_induction m.setMarked text runs with
  | case1 line number rest hmarks ih =>
    have hgaps : line.gap = m.before ∧ m.after <+: number.gap := hmarks
    simp [places, hgaps, ih, List.mapIdx_cons, DigitRun.withDigits]
  | case2 line number rest hmarks ih =>
    have hgaps : ¬ (line.gap = m.before ∧ m.after <+: number.gap) := hmarks
    rw [ih]
    simp [places, hgaps, List.mapIdx_cons]
  | case3 r => simp [places]
  | case4 => rfl

/-- The marked numbers are the digits of the runs at their places. -/
theorem marked_eq_map (m : Marker) (runs : List DigitRun) :
    m.marked runs =
      (m.places (runs.map DigitRun.gap)).map fun i => runs[i]?.elim [] DigitRun.digits := by
  fun_induction m.marked runs with
  | case1 line number rest hmarks ih =>
    have hgaps : line.gap = m.before ∧ m.after <+: number.gap := hmarks
    simp [places, hgaps, ih]
  | case2 line number rest hmarks ih =>
    have hgaps : ¬ (line.gap = m.before ∧ m.after <+: number.gap) := hmarks
    rw [ih]
    simp [places, hgaps]
  | case3 r => rfl
  | case4 => rfl

/-- Replacing leaves what stands between the runs. -/
theorem map_gap_setMarked (text : List Char) (runs : List DigitRun) :
    (m.setMarked text runs).map DigitRun.gap = runs.map DigitRun.gap := by
  fun_induction m.setMarked text runs with
  | case1 line number rest hmarks ih => simp [ih]
  | case2 line number rest hmarks ih => simpa using ih
  | case3 r => rfl
  | case4 => rfl

end Places

section Replacing

/-- Of two texts that are put into the same places the second one remains. -/
theorem setMarked_setMarked (text text' : List Char) (runs : List DigitRun) :
    m.setMarked text' (m.setMarked text runs) = m.setMarked text' runs := by
  rw [setMarked_eq_mapIdx text', map_gap_setMarked, setMarked_eq_mapIdx text,
    setMarked_eq_mapIdx text', List.mapIdx_mapIdx]
  congr 1
  funext i r
  simp only [Function.comp_apply]
  split_ifs <;> rfl

/-- Numbers with different marks are replaced in any order. -/
theorem setMarked_comm (hne : m.before ≠ m'.before) (text text' : List Char)
    (runs : List DigitRun) :
    m.setMarked text (m'.setMarked text' runs) = m'.setMarked text' (m.setMarked text runs) := by
  rw [setMarked_eq_mapIdx text, setMarked_eq_mapIdx text' (m.setMarked text runs),
    map_gap_setMarked, map_gap_setMarked, setMarked_eq_mapIdx text', setMarked_eq_mapIdx text,
    List.mapIdx_mapIdx, List.mapIdx_mapIdx]
  congr 1
  funext i r
  simp only [Function.comp_apply]
  split_ifs with hplace hplace'
  · exact absurd hplace' (not_mem_places_of_ne hne hplace)
  · rfl
  · rfl
  · rfl

variable {cs : List Char}

theorem replace_replace (hm : m.NoDigits) (hne : text ≠ []) (hdigits : ∀ c ∈ text, c.isDigit = true)
    (text' cs : List Char) : m.replace text' (m.replace text cs) = m.replace text' cs := by
  obtain ⟨gap, runs, hgap, hruns, rfl⟩ := exists_spell cs
  rw [replace_spell hm hgap hruns, replace_spell hm hgap (maximal_setMarked hne hdigits hruns),
    replace_spell hm hgap hruns, setMarked_setMarked]

theorem replace_comm (hm : m.NoDigits) (hm' : m'.NoDigits) (hmark : m.before ≠ m'.before)
    (hne : text ≠ []) (hdigits : ∀ c ∈ text, c.isDigit = true)
    (hne' : text' ≠ []) (hdigits' : ∀ c ∈ text', c.isDigit = true) (cs : List Char) :
    m.replace text (m'.replace text' cs) = m'.replace text' (m.replace text cs) := by
  obtain ⟨gap, runs, hgap, hruns, rfl⟩ := exists_spell cs
  rw [replace_spell hm' hgap hruns, replace_spell hm hgap (maximal_setMarked hne' hdigits' hruns),
    replace_spell hm hgap hruns, replace_spell hm' hgap (maximal_setMarked hne hdigits hruns),
    setMarked_comm hmark]

end Replacing

end Marker

section Split

variable {α : Type} {f : Nat → α → α} {i j : Nat} {l front between behind : List α} {a b : α}

/-- A list around one of its places. -/
theorem exists_split_at (h : i < l.length) :
    ∃ front a behind, l = front ++ a :: behind ∧ front.length = i :=
  ⟨l.take i, l[i], l.drop (i + 1),
    by rw [← List.drop_eq_getElem_cons, List.take_append_drop],
    List.length_take_of_le (Nat.le_of_lt h)⟩

/-- A list around two of its places. -/
theorem exists_split_at_both (hij : i < j) (hj : j < l.length) :
    ∃ front a between b behind, l = front ++ a :: (between ++ b :: behind) ∧ front.length = i ∧
      front.length + 1 + between.length = j := by
  obtain ⟨front, a, rest, rfl, hfront⟩ := exists_split_at (Nat.lt_trans hij hj)
  rw [List.length_append, List.length_cons] at hj
  obtain ⟨between, b, behind, rfl, hbetween⟩ : ∃ between b behind,
      rest = between ++ b :: behind ∧ between.length = j - (i + 1) := exists_split_at (by omega)
  exact ⟨front, a, between, b, behind, rfl, hfront, by omega⟩

theorem mapIdx_eq_self (h : ∀ k < l.length, ∀ x, f k x = x) : l.mapIdx f = l :=
  List.ext_getElem List.length_mapIdx fun k _ hk => by rw [List.getElem_mapIdx, h k hk]

/-- Changing the items at two places of a list leaves what is around them. -/
theorem mapIdx_split
    (h : ∀ k, k ≠ front.length → k ≠ front.length + 1 + between.length → ∀ x, f k x = x) :
    (front ++ a :: (between ++ b :: behind)).mapIdx f =
      front ++ f front.length a ::
        (between ++ f (front.length + 1 + between.length) b :: behind) := by
  have hplace : 0 + between.length + 1 + front.length = front.length + 1 + between.length := by
    omega
  rw [List.mapIdx_append, List.mapIdx_cons, List.mapIdx_append, List.mapIdx_cons,
    mapIdx_eq_self fun k hk x => h k (by omega) (by omega) x,
    mapIdx_eq_self fun k hk x => h _ (by omega) (by omega) x,
    mapIdx_eq_self fun k hk x => h _ (by omega) (by omega) x, hplace, Nat.zero_add]

theorem getElem?_split :
    (front ++ a :: (between ++ b :: behind))[front.length + 1 + between.length]? = some b := by
  have hplace : front.length + 1 + between.length - front.length = between.length + 1 := by omega
  rw [List.getElem?_append_right (by omega), hplace, List.getElem?_cons_succ,
    List.getElem?_append_right (Nat.le_refl _), Nat.sub_self]
  rfl

end Split

section Numbers

/-- What a text is apart from two numbers. -/
structure Surroundings where
  /-- The number that stands in front of the other one. -/
  bound : PlayerBound
  other : PlayerBound
  front : List Char
  between : List Char
  behind : List Char
  ne : bound ≠ other
  /-- Each number stands behind its mark. -/
  mark_front : bound.marker.before <:+ front
  mark_between : other.marker.before <:+ between
  /-- No number goes on behind its digits. -/
  head_between : ∀ c ∈ between.head?, c.isDigit = false
  head_behind : ∀ c ∈ behind.head?, c.isDigit = false

/-- The text with two numbers in their places. -/
def Surroundings.fill (s : Surroundings) (numbers : PlayerBound → List Char) : List Char :=
  s.front ++ (numbers s.bound ++ (s.between ++ (numbers s.other ++ s.behind)))

theorem spell_append (runs rest : List DigitRun) :
    spell (runs ++ rest) = spell runs ++ spell rest :=
  List.flatMap_append

theorem MaximalRuns.of_append {runs rest : List DigitRun} (h : MaximalRuns (runs ++ rest)) :
    MaximalRuns rest := by
  induction runs with
  | nil => exact h
  | cons r runs ih =>
    cases h with
    | cons _ _ _ _ hrest => exact ih hrest

/-- A text of runs ends with what stands behind the last run. -/
theorem suffix_spell {runs rest : List DigitRun} {gap : List Char} {k : Nat}
    (hlength : runs.length = k + 1) (hgap : ((runs ++ rest).map DigitRun.gap)[k]? = some gap) :
    gap <:+ spell runs := by
  obtain rfl | ⟨front, last, rfl⟩ := runs.eq_nil_or_concat
  · cases hlength
  · obtain rfl : front.length = k := by simpa using hlength
    have hlast : last.gap = gap := by simpa using hgap
    rw [List.concat_eq_append, spell_append, spell_cons, hlast, ← List.append_assoc]
    exact ⟨_, congrArg _ (List.append_nil gap).symm⟩

/-- What stands behind one run, followed by more runs, ends with what stands behind the last one. -/
theorem suffix_gap_spell {front between rest : List DigitRun} {a : DigitRun} {gap : List Char}
    (hgap : ((front ++ a :: (between ++ rest)).map DigitRun.gap)[front.length + between.length]? =
      some gap) : gap <:+ a.gap ++ spell between := by
  have hplace : front.length + between.length - front.length = between.length := by omega
  rw [List.map_append, List.getElem?_append_right (by rw [List.length_map]; omega),
    List.length_map, hplace] at hgap
  -- The run itself does not matter: it may have no digits.
  have hmore : ((⟨[], a.gap⟩ :: between ++ rest).map DigitRun.gap)[between.length]? = some gap :=
    hgap
  exact suffix_spell List.length_cons hmore

/-- What stands behind one run, followed by more runs, does not begin with a digit. -/
theorem MaximalRuns.head?_gap_spell {between rest : List DigitRun} {a : DigitRun}
    (h : MaximalRuns (a :: (between ++ rest))) :
    ∀ c ∈ (a.gap ++ spell between).head?, c.isDigit = false := by
  intro c hc
  refine h.head?_gap c ?_
  rw [spell_append, ← List.append_assoc, List.head?_append, Option.mem_def.mp hc]
  rfl

variable {runs : List DigitRun} {old new : PlayerBound → List Char} {place : PlayerBound → Nat}

/-- The two numbers are at different places. -/
theorem place_first_ne_last
    (h : ∀ bound : PlayerBound, bound.marker.places (runs.map DigitRun.gap) = [place bound]) :
    place .first ≠ place .last := by
  have hmarks : PlayerBound.first.marker.before ≠ PlayerBound.last.marker.before := by decide
  have hmem : place .first ∈ PlayerBound.first.marker.places (runs.map DigitRun.gap) := by
    rw [h]
    exact List.mem_singleton_self _
  have hother := Marker.not_mem_places_of_ne hmarks hmem
  rwa [h, List.mem_singleton] at hother

/-- There are two numbers only. -/
theorem PlayerBound.eq_or_eq {bound other : PlayerBound} (hne : bound ≠ other) (any : PlayerBound) :
    any = bound ∨ any = other := by
  revert hne
  cases any <;> cases bound <;> cases other <;> decide

/-- Replacing both numbers changes the two runs at their places. -/
theorem exists_setMarked_both
    (h : ∀ bound : PlayerBound, bound.marker.places (runs.map DigitRun.gap) = [place bound])
    (new : PlayerBound → List Char) :
    ∃ f : Nat → DigitRun → DigitRun, (∀ bound r, f (place bound) r = r.withDigits (new bound)) ∧
      (∀ i, (∀ bound, i ≠ place bound) → ∀ r, f i r = r) ∧
      PlayerBound.last.marker.setMarked (new .last)
        (PlayerBound.first.marker.setMarked (new .first) runs) = runs.mapIdx f := by
  have hne := place_first_ne_last h
  refine ⟨fun i r => if i = place .last then r.withDigits (new .last)
    else if i = place .first then r.withDigits (new .first) else r, ?_, ?_, ?_⟩
  · intro bound r
    cases bound with
    | first => exact (if_neg hne).trans (if_pos rfl)
    | last => exact if_pos rfl
  · intro i hi r
    exact (if_neg (hi .last)).trans (if_neg (hi .first))
  · rw [Marker.setMarked_eq_mapIdx, Marker.map_gap_setMarked, Marker.setMarked_eq_mapIdx,
      List.mapIdx_mapIdx, h, h]
    congr 1
    funext i r
    simp only [Function.comp_apply, List.mem_singleton]
    split_ifs <;> rfl

/-- A text of runs with two marked numbers, and all that replacing these numbers leaves of it. -/
theorem exists_surroundings_of_lt {bound other : PlayerBound} {gap : List Char}
    (hne : bound ≠ other) (hlt : place bound < place other) (hruns : MaximalRuns runs)
    (h : ∀ bound : PlayerBound, bound.marker.places (runs.map DigitRun.gap) = [place bound]) :
    ∃ s : Surroundings,
      gap ++ spell runs = s.fill (fun bound => runs[place bound]?.elim [] DigitRun.digits) ∧
      ∀ new : PlayerBound → List Char, gap ++ spell (PlayerBound.last.marker.setMarked (new .last)
        (PlayerBound.first.marker.setMarked (new .first) runs)) = s.fill new := by
  have hmem (bound : PlayerBound) : place bound ∈ bound.marker.places (runs.map DigitRun.gap) := by
    rw [h]
    exact List.mem_singleton_self _
  obtain ⟨k, hk, -, hmark⟩ := Marker.exists_of_mem_places (hmem bound)
  obtain ⟨k', hk', hlength', hmark'⟩ := Marker.exists_of_mem_places (hmem other)
  rw [List.length_map] at hlength'
  -- The two places cut the runs into those in front, between and behind.
  obtain ⟨front, a, between, b, behind, rfl, hfront, hsecond⟩ := exists_split_at_both hlt hlength'
  have hmaximal : MaximalRuns (a :: between ++ b :: behind) := hruns.of_append
  have hfrontMark : bound.marker.before <:+ gap ++ spell front :=
    (suffix_spell (by omega) hmark).trans (List.suffix_append _ _)
  obtain rfl : k' = front.length + between.length := by omega
  refine ⟨⟨bound, other, gap ++ spell front, a.gap ++ spell between, b.gap ++ spell behind, hne,
    hfrontMark, suffix_gap_spell hmark', hmaximal.head?_gap_spell, hmaximal.of_append.head?_gap⟩,
    ?_, fun new => ?_⟩
  · simp [Surroundings.fill, spell_append, spell_cons, ← hfront, ← hsecond, getElem?_split]
  · obtain ⟨f, hplaces, hothers, heq⟩ := exists_setMarked_both h new
    have hfirst : f front.length a = a.withDigits (new bound) := by rw [hfront, hplaces]
    have hnext : f (front.length + 1 + between.length) b = b.withDigits (new other) := by
      rw [hsecond, hplaces]
    rw [heq, mapIdx_split, hfirst, hnext]
    · simp only [Surroundings.fill, spell_append, spell_cons, DigitRun.withDigits,
        List.append_assoc]
    · intro i hi hi'
      refine hothers i fun any => ?_
      rcases PlayerBound.eq_or_eq hne any with rfl | rfl
      · rwa [← hfront]
      · rwa [← hsecond]

/-- Every run of a text has a digit. -/
theorem MaximalRuns.digits (h : MaximalRuns runs) :
    ∀ r ∈ runs, r.digits ≠ [] ∧ ∀ c ∈ r.digits, c.isDigit = true := by
  induction h with
  | nil => exact List.forall_mem_nil _
  | cons hne hdigits _ _ _ ih => exact List.forall_mem_cons.mpr ⟨⟨hne, hdigits⟩, ih⟩

/-- In a text with two marked numbers, these are runs of digits, and replacing them leaves all that
stands around them. -/
theorem exists_surroundings {cs : List Char}
    (h : ∀ bound : PlayerBound, bound.marker.numbers cs = [old bound]) :
    (∀ bound, old bound ≠ [] ∧ ∀ c ∈ old bound, c.isDigit = true) ∧
      ∃ s : Surroundings, cs = s.fill old ∧
        ∀ new : PlayerBound → List Char, (∀ bound, new bound ≠ []) →
          (∀ bound, ∀ c ∈ new bound, c.isDigit = true) →
          PlayerBound.last.marker.replace (new .last)
            (PlayerBound.first.marker.replace (new .first) cs) = s.fill new := by
  obtain ⟨gap, runs, hgap, hruns, rfl⟩ := exists_spell cs
  -- One number with each mark is one place for each mark.
  have hplace (bound : PlayerBound) : ∃ i, bound.marker.places (runs.map DigitRun.gap) = [i] ∧
      ∃ r, runs[i]? = some r ∧ r.digits = old bound := by
    have hone := h bound
    rw [Marker.numbers_spell bound.marker_noDigits hgap hruns, Marker.marked_eq_map,
      List.map_eq_singleton_iff] at hone
    obtain ⟨i, hi, hold⟩ := hone
    have hlt : i < runs.length := by
      obtain ⟨-, -, hlt, -⟩ := Marker.exists_of_mem_places (hi ▸ List.mem_singleton_self i)
      rwa [List.length_map] at hlt
    rw [List.getElem?_eq_getElem hlt] at hold
    exact ⟨i, hi, runs[i], List.getElem?_eq_getElem hlt, hold⟩
  choose place hplace run hrun hdigits using hplace
  have hold : (fun bound => runs[place bound]?.elim [] DigitRun.digits) = old := by
    funext bound
    rw [hrun, ← hdigits]
    rfl
  refine ⟨fun bound => ?_, ?_⟩
  · rw [← hdigits]
    exact hruns.digits _ (List.mem_of_getElem? (hrun bound))
  · have hset : ∃ s : Surroundings, gap ++ spell runs = s.fill old ∧
        ∀ new : PlayerBound → List Char, gap ++ spell (PlayerBound.last.marker.setMarked (new .last)
          (PlayerBound.first.marker.setMarked (new .first) runs)) = s.fill new := by
      rw [← hold]
      rcases Nat.lt_or_gt_of_ne (place_first_ne_last hplace) with hlt | hlt
      · exact exists_surroundings_of_lt (by decide) hlt hruns hplace
      · exact exists_surroundings_of_lt (by decide) hlt hruns hplace
    obtain ⟨s, hs, hfill⟩ := hset
    refine ⟨s, hs, fun new hne hnew => ?_⟩
    rw [Marker.replace_spell (PlayerBound.marker_noDigits _) hgap hruns,
      Marker.replace_spell (PlayerBound.marker_noDigits _) hgap
        (Marker.maximal_setMarked (hne _) (hnew _) hruns), hfill]

end Numbers

section Programs

variable {program : List UInt8} {b c old : FrameBounds} {cs : List Char}

/-- Frames that a program tells exactly: a first one from 1 on, and a last one, both with numbers
below `2 ^ 53`. -/
inductive FrameBounds.Exact : FrameBounds → Prop
  | intro {first last : Nat} (hpos : 0 < first) (hfirst : first < Binary64.exactBound)
      (hlast : last < Binary64.exactBound) : Exact ⟨.ofNat first, .ofNat last⟩

/-- The digits that are written into a program for some frames. -/
def FrameBounds.digits (b : FrameBounds) (bound : PlayerBound) : List Char :=
  (b.written bound).text.toList

/-- A text with other frames in the place of its own ones. -/
def FrameBounds.rewrite (b : FrameBounds) (cs : List Char) : List Char :=
  PlayerBound.last.marker.replace (b.digits .last)
    (PlayerBound.first.marker.replace (b.digits .first) cs)

/-- Exact numbers are written with decimal digits. -/
theorem FrameBounds.Exact.exists_digits_eq (hb : b.Exact) (bound : PlayerBound) :
    ∃ n, b.digits bound = Nat.toDigits 10 n := by
  cases hb with
  | @intro first last hpos hfirst hlast =>
    cases bound with
    | first =>
      refine ⟨first - 1, ?_⟩
      rw [digits, written_first _ hpos (Nat.le_of_lt hfirst), Binary64.text_ofNat (by omega)]
    | last => exact ⟨last, Binary64.text_ofNat hlast⟩

theorem FrameBounds.Exact.digits_ne_nil (hb : b.Exact) (bound : PlayerBound) :
    b.digits bound ≠ [] := by
  obtain ⟨n, hn⟩ := hb.exists_digits_eq bound
  rw [hn]
  exact Nat.toDigits_ne_nil

theorem FrameBounds.Exact.isDigit_digits (hb : b.Exact) (bound : PlayerBound) :
    ∀ c ∈ b.digits bound, c.isDigit = true := by
  obtain ⟨n, hn⟩ := hb.exists_digits_eq bound
  rw [hn]
  exact isDigit_toDigits n

/-- Of two settings the second one remains. -/
theorem FrameBounds.Exact.rewrite_rewrite (hb : b.Exact) (hc : c.Exact) (cs : List Char) :
    c.rewrite (b.rewrite cs) = c.rewrite cs := by
  have hmarks : PlayerBound.first.marker.before ≠ PlayerBound.last.marker.before := by decide
  -- The new first number goes to the old one past the last number.
  rw [rewrite, rewrite, Marker.replace_comm (PlayerBound.marker_noDigits _)
      (PlayerBound.marker_noDigits _) hmarks (hc.digits_ne_nil _) (hc.isDigit_digits _)
      (hb.digits_ne_nil _) (hb.isDigit_digits _),
    Marker.replace_replace (PlayerBound.marker_noDigits _) (hb.digits_ne_nil _)
      (hb.isDigit_digits _),
    Marker.replace_replace (PlayerBound.marker_noDigits _) (hb.digits_ne_nil _)
      (hb.isDigit_digits _), rewrite]

theorem FrameBounds.Exact.decodeLatin1_rewrite (hb : b.Exact) (program : List UInt8) :
    decodeLatin1 (encodeLatin1 (b.rewrite (decodeLatin1 program))) =
      b.rewrite (decodeLatin1 program) := by
  obtain ⟨first, hfirst⟩ := hb.exists_digits_eq .first
  obtain ⟨last, hlast⟩ := hb.exists_digits_eq .last
  rw [rewrite, hfirst, hlast]
  exact decodeLatin1_encodeLatin1
    (oneByte_replace_marker .last last (oneByte_replace_marker .first first
      (oneByte_decodeLatin1 program)))

/-- A program whose frames can be read holds each number once. -/
theorem exists_numbers_eq (h : playerBounds program = .ok old) :
    ∃ numbers : PlayerBound → List Char,
      ∀ bound : PlayerBound, bound.marker.numbers (decodeLatin1 program) = [numbers bound] := by
  simp only [playerBounds, bind_eq_ok_iff, markedNumber_eq_ok_iff] at h
  obtain ⟨first, hfirst, last, hlast, -⟩ := h
  have hsingle (bound : PlayerBound) :
      ∃ digits, bound.marker.numbers (decodeLatin1 program) = [digits] := by
    cases bound with
    | first => exact ⟨first, hfirst⟩
    | last => exact ⟨last, hlast⟩
  exact Classical.skolem.mp hsingle

/-- The frames of a program can be set if they can be read. -/
theorem setPlayerBounds_eq (h : playerBounds program = .ok old) (b : FrameBounds) :
    setPlayerBounds program b = .ok (encodeLatin1 (b.rewrite (decodeLatin1 program))) := by
  simp only [playerBounds, bind_eq_ok_iff] at h
  obtain ⟨first, hfirst, last, hlast, -⟩ := h
  rw [setPlayerBounds, hfirst, hlast]
  rfl

/-- The frames of a program are a field of it: what is set is read, setting changes the digits of
the two numbers and nothing else, and the last setting counts. In a program that was built they are
the frames that it was built for, and setting others builds the program for these. -/
theorem playerBounds_field (hb : b.Exact) (hc : c.Exact) :
    (∀ program old, playerBounds program = .ok old →
      ∃ set, setPlayerBounds program b = .ok set ∧ playerBounds set = .ok b ∧
        (∃ (s : Surroundings) (numbers : PlayerBound → List Char),
          (∀ bound, numbers bound ≠ [] ∧ ∀ d ∈ numbers bound, d.isDigit = true) ∧
          decodeLatin1 program = s.fill numbers ∧ decodeLatin1 set = s.fill b.digits) ∧
        setPlayerBounds set c = setPlayerBounds program c) ∧
    ∀ delay, playerBounds (buildPlayerProgram b delay) = .ok b ∧
      setPlayerBounds (buildPlayerProgram b delay) c = .ok (buildPlayerProgram c delay) := by
  refine ⟨fun program old hold => ?_, fun delay => ?_⟩
  · have hset := setPlayerBounds_eq hold b
    have hread : playerBounds (encodeLatin1 (b.rewrite (decodeLatin1 program))) = .ok b := by
      obtain ⟨hpos, hfirst, hlast⟩ := hb
      exact playerBounds_setPlayerBounds hpos (Nat.le_of_lt hfirst) hlast hset
    obtain ⟨numbers, hnumbers⟩ := exists_numbers_eq hold
    obtain ⟨hdigits, s, hprogram, hfill⟩ := exists_surroundings hnumbers
    refine ⟨_, hset, hread, ⟨s, numbers, hdigits, hprogram, ?_⟩, ?_⟩
    · rw [hb.decodeLatin1_rewrite]
      exact hfill b.digits hb.digits_ne_nil hb.isDigit_digits
    · rw [setPlayerBounds_eq hread, setPlayerBounds_eq hold, hb.decodeLatin1_rewrite,
        hb.rewrite_rewrite hc]
  · obtain ⟨hpos, hfirst, hlast⟩ := hb
    exact ⟨playerBounds_build hpos hfirst hlast, setPlayerBounds_build hpos hfirst hlast c⟩

/-- A text in which the first number is the line number of the second one. -/
def sharedDigits : List UInt8 :=
  encodeLatin1 "1 LET F=5 IF F>7 THE".toList

/-- Frames 100 to 0 can be set in a program whose two numbers stand next to each other, and then
frames 2 to 3. -/
theorem playerBounds_field_sharedDigits :
    playerBounds sharedDigits = .ok ⟨.ofNat 6, .ofNat 7⟩ ∧
      ∃ set, setPlayerBounds sharedDigits ⟨.ofNat 100, .ofNat 0⟩ = .ok set ∧
        playerBounds set = .ok ⟨.ofNat 100, .ofNat 0⟩ ∧
        setPlayerBounds set ⟨.ofNat 2, .ofNat 3⟩ =
          setPlayerBounds sharedDigits ⟨.ofNat 2, .ofNat 3⟩ := by
  have hbounds : playerBounds sharedDigits = .ok ⟨.ofNat 6, .ofNat 7⟩ := by decide +kernel
  obtain ⟨hfield, -⟩ := playerBounds_field (b := ⟨.ofNat 100, .ofNat 0⟩) (c := ⟨.ofNat 2, .ofNat 3⟩)
    (.intro (by decide) (by decide) (by decide)) (.intro (by decide) (by decide) (by decide))
  obtain ⟨set, hset, hread, -, hagain⟩ := hfield sharedDigits _ hbounds
  exact ⟨hbounds, set, hset, hread, hagain⟩

end Programs

end Flipbook
