import Flipbook.Proofs.Archive.Characters
import Flipbook.Proofs.Script.Compile
import Flipbook.Proofs.Script.Grammar
import Mathlib.Order.Nat

/-!
# The language of scripts

A text is a script if each of its lines is empty or a statement, and the statements go together:
there is one number of frames, no other header is repeated, names are declared once and in front of
their use, and no frame range ends behind the last frame. Compiling takes the scripts and nothing
else, and what it makes of a script is its statements, in their order.

The statements are collected into a draft one by one, and whether they go together is decided as
they come, against the statements in front of them alone. What the draft of all of them would be is
therefore written down first, so that adding a statement goes from one such draft to the next.

## Main definitions

* `SplitLines`, `DerivesLines`: the lines of a text, and the statements on them.
* `Consistent`, `Admissible`: statements that go together.
* `depicted`: the timeline that statements describe.
* `IsScript`: the language.

## Main results

* `add_draftOf_eq_ok_iff`: a statement is added to a draft, or its header is taken;
* `consistent_concat_iff`: what the statement behind consistent ones has to fulfil;
* `compile_accepts_language`: compiling takes the language and makes what the statements describe.
-/

namespace Flipbook.Script

section Lines

/-- The lines of a text, which line feeds end, with or without a carriage return in front. -/
inductive SplitLines : List Char → List (List Char) → Prop
  | last {l : List Char} (h : '\n' ∉ l) : SplitLines l [l]
  | lf {l cs : List Char} {ls : List (List Char)} (h : '\n' ∉ l) (hcr : l.getLast? ≠ some '\r')
      (hrest : SplitLines cs ls) : SplitLines (l ++ '\n' :: cs) (l :: ls)
  | crlf {l cs : List Char} {ls : List (List Char)} (h : '\n' ∉ l) (hrest : SplitLines cs ls) :
      SplitLines (l ++ '\r' :: '\n' :: cs) (l :: ls)

variable {p : Char → Bool} {c : Char} {l cs : List Char} {ls : List (List Char)}

theorem piecesBy_append_cons (hl : ∀ d ∈ l, p d = false) (hc : p c = true) :
    piecesBy p (l ++ c :: cs) = l :: piecesBy p cs := by
  rw [piecesBy_append hc, piecesBy_of_forall hl]
  rfl

/-- A carriage return at the end of a line belongs to no token. -/
theorem lineTokens_concat (l : List Char) : lineTokens (l ++ ['\r']) = lineTokens l := by
  have hwords (cs : List Char) : words (cs ++ ['\r']) = words cs := by
    rw [words, wordsBy, piecesBy_append rfl, List.filter_append]
    exact List.append_nil _
  rw [lineTokens, lineTokens, List.takeWhile_append]
  split_ifs with hall
  · rw [List.takeWhile_cons_of_pos (by decide), List.takeWhile_nil, hwords,
      (List.takeWhile_prefix _).eq_of_length hall]
  · rfl

theorem exists_splitLines (cs : List Char) : ∃ ls, SplitLines cs ls := by
  induction cs with
  | nil => exact ⟨[[]], .last List.not_mem_nil⟩
  | cons c cs ih =>
    obtain ⟨ls, h⟩ := ih
    by_cases hc : c = '\n'
    · subst hc
      exact ⟨[] :: ls, .lf List.not_mem_nil (by simp) h⟩
    -- The character goes to the front of the first line, or with its line feed to its end.
    have hmem {l : List Char} (hl : '\n' ∉ l) : '\n' ∉ c :: l :=
      List.not_mem_cons_of_ne_of_not_mem (Ne.symm hc) hl
    cases h with
    | last h => exact ⟨_, .last (hmem h)⟩
    | crlf h hrest => exact ⟨_, .crlf (hmem h) hrest⟩
    | @lf l cs ls h hcr hrest =>
      cases l with
      | cons d l => exact ⟨_, .lf (hmem h) (by rwa [List.getLast?_cons_cons]) hrest⟩
      | nil =>
        by_cases hreturn : c = '\r'
        · subst hreturn
          exact ⟨_, .crlf List.not_mem_nil hrest⟩
        · exact ⟨_, .lf (hmem h) (by simpa using hreturn) hrest⟩

/-- The tokens of a script are those of its lines. -/
theorem map_lineTokens_of_splitLines (h : SplitLines cs ls) :
    (piecesBy (· == '\n') cs).map lineTokens = ls.map lineTokens := by
  have hfalse {l : List Char} (hl : '\n' ∉ l) : ∀ c ∈ l, (c == '\n') = false := by
    intro c hc
    rw [beq_eq_false_iff_ne]
    rintro rfl
    exact hl hc
  induction h with
  | last h => rw [piecesBy_of_forall (hfalse h)]
  | lf h hcr hrest ih => rw [piecesBy_append_cons (hfalse h) rfl, List.map_cons, ih, List.map_cons]
  | @crlf l cs ls h hrest ih =>
    have hline : '\n' ∉ l ++ ['\r'] := by simp [h]
    rw [List.append_cons, piecesBy_append_cons (hfalse hline) rfl, List.map_cons, ih,
      List.map_cons, lineTokens_concat]

end Lines

section Statements

variable {α : Type}

namespace Statement

/-- The number of frames that a statement gives. -/
@[simp] def frames? : Statement α → Option Nat
  | .frames count => some count
  | _ => none

/-- The frame rate that a statement gives. -/
@[simp] def fps? : Statement α → Option Binary64
  | .fps rate => some rate
  | _ => none

/-- The canvas that a statement gives. -/
@[simp] def canvas? : Statement α → Option Canvas
  | .canvas size => some size
  | _ => none

/-- The element that a statement declares. -/
@[simp] def element? : Statement α → Option (Element α)
  | .element e => some e
  | _ => none

/-- The move that a statement of a line says, given its position among the moves. -/
@[simp] def move? (line : Nat) : Statement α → Option (Nat → Move α)
  | .move elementId range ops => some fun order => { elementId, range, ops, order, line }
  | _ => none

/-- The line that a statement draws. -/
@[simp] def mark? : Statement α → Option (LineMark α)
  | .line mark => some mark
  | _ => none

/-- The frame range that a statement names. -/
@[simp] def range? : Statement α → Option FrameRange
  | .element e => e.visible
  | .move _ range _ => some range
  | .line mark => mark.range
  | _ => none

/-- What a statement describes carries the line that it stands on. -/
def StandsOn (line : Nat) (s : Statement α) : Prop :=
  (∀ e ∈ s.element?, e.line = line) ∧ ∀ mark ∈ s.mark?, mark.line = line

end Statement

section Described

variable (ss : List (Nat × Statement α))

/-- What statements give for a header, with their lines. -/
def settings {β : Type} (f : Statement α → Option β) : List (Setting β) :=
  ss.filterMap fun s => (f s.2).map fun value => ⟨value, s.1⟩

/-- The elements that statements declare. -/
def elements : List (Element α) :=
  ss.filterMap fun s => s.2.element?

/-- The moves that statements say, each with its position. -/
def moves : List (Move α) :=
  (ss.filterMap fun s => s.2.move? s.1).mapIdx fun order move => move order

/-- The lines that statements draw. -/
def marks : List (LineMark α) :=
  ss.filterMap fun s => s.2.mark?

/-- Statements that repeat no header and declare names once and in front of their use. -/
structure Consistent : Prop where
  frames : (settings ss Statement.frames?).length ≤ 1
  fps : (settings ss Statement.fps?).length ≤ 1
  canvas : (settings ss Statement.canvas?).length ≤ 1
  ids : ((elements ss).map Element.id).Nodup
  moved : ∀ m ∈ moves ss, DeclaredBefore (elements ss) m.line m.elementId
  owners : ∀ mark ∈ marks ss, ∀ id ∈ mark.elementId, DeclaredBefore (elements ss) mark.line id

/-- Statements that make up a script of some number of frames. -/
structure Admissible (total : Nat) : Prop extends Consistent ss where
  totalFrames : (settings ss Statement.frames?).map Setting.value = [total]
  ranges : ∀ s ∈ ss, ∀ r ∈ s.2.range?, r.last ≤ total

/-- The timeline that statements describe. -/
def depicted (total : Nat) : Timeline α where
  elements := elements ss
  moves := moves ss
  lines := marks ss
  totalFrames := total
  frameRate := ((settings ss Statement.fps?).head?.map Setting.value).getD defaultFrameRate
  canvas := ((settings ss Statement.canvas?).head?.map Setting.value).getD defaultCanvas

/-- The draft that statements make. -/
def draftOf : Draft α where
  frames := (settings ss Statement.frames?).head?
  fps := (settings ss Statement.fps?).head?
  canvas := (settings ss Statement.canvas?).head?
  elements := elements ss
  moves := moves ss
  lines := marks ss
  ranges := ss.filterMap fun s => s.2.range?.map fun r => (r, s.1)

end Described

section Concat

variable {ss ss' : List (Nat × Statement α)} {s : Statement α} {n : Nat}

private theorem filterMap_concat {β γ : Type} (f : β → Option γ) (xs : List β) (x : β) :
    (xs ++ [x]).filterMap f = xs.filterMap f ++ (f x).toList := by
  rw [List.filterMap_append, List.filterMap_cons, List.filterMap_nil]
  cases f x <;> rfl

theorem settings_concat {β : Type} (f : Statement α → Option β) :
    settings (ss ++ [(n, s)]) f = settings ss f ++ ((f s).map fun value => ⟨value, n⟩).toList :=
  filterMap_concat _ _ _

theorem elements_concat : elements (ss ++ [(n, s)]) = elements ss ++ s.element?.toList :=
  filterMap_concat _ _ _

theorem marks_concat : marks (ss ++ [(n, s)]) = marks ss ++ s.mark?.toList :=
  filterMap_concat _ _ _

theorem moves_concat :
    moves (ss ++ [(n, s)]) =
      moves ss ++ (s.move? n).toList.map fun move => move (moves ss).length := by
  rw [moves, filterMap_concat, List.mapIdx_append]
  dsimp only
  rw [← moves]
  cases s.move? n with
  | none => rfl
  | some move => simp [moves]

/-- Numbered statements in front of a line. -/
def Before (n : Nat) (ss : List (Nat × Statement α)) : Prop :=
  ∀ s ∈ ss, s.1 < n ∧ s.2.StandsOn s.1

/-- Numbered statements from a line on. -/
def Behind (n : Nat) (ss : List (Nat × Statement α)) : Prop :=
  ∀ s ∈ ss, n ≤ s.1 ∧ s.2.StandsOn s.1

theorem Before.succ (h : Before n ss) : Before (n + 1) ss :=
  fun s hs => ⟨Nat.lt_succ_of_lt (h s hs).1, (h s hs).2⟩

theorem Before.concat (h : Before n ss) (hs : s.StandsOn n) : Before (n + 1) (ss ++ [(n, s)]) :=
  List.forall_mem_append.mpr ⟨h.succ, List.forall_mem_singleton.mpr ⟨Nat.lt_succ_self n, hs⟩⟩

theorem Before.elements_lt (h : Before n ss) : ∀ e ∈ elements ss, e.line < n := by
  intro e he
  obtain ⟨s, hs, hsome⟩ := List.mem_filterMap.mp he
  obtain ⟨hlt, hstands⟩ := h s hs
  exact (hstands.1 e hsome).trans_lt hlt

theorem Behind.le_elements (h : Behind n ss) : ∀ e ∈ elements ss, n ≤ e.line := by
  intro e he
  obtain ⟨s, hs, hsome⟩ := List.mem_filterMap.mp he
  obtain ⟨hle, hstands⟩ := h s hs
  exact hle.trans (hstands.1 e hsome).ge

theorem Before.marks_lt (h : Before n ss) : ∀ mark ∈ marks ss, mark.line < n := by
  intro mark hmark
  obtain ⟨s, hs, hsome⟩ := List.mem_filterMap.mp hmark
  obtain ⟨hlt, hstands⟩ := h s hs
  exact (hstands.2 mark hsome).trans_lt hlt

/-- A move carries the line that its statement stands on. -/
theorem line_of_move? {move : Nat → Move α} (h : s.move? n = some move) (order : Nat) :
    (move order).line = n := by
  cases s with
  | move id r ops =>
    obtain rfl := Option.some.inj h
    rfl
  | _ => cases h

theorem Before.moves_lt (h : Before n ss) : ∀ m ∈ moves ss, m.line < n := by
  intro m hm
  obtain ⟨order, hlt, rfl⟩ := List.mem_mapIdx.mp hm
  obtain ⟨s, hs, hsome⟩ := List.mem_filterMap.mp (List.getElem_mem hlt)
  exact (line_of_move? hsome order).trans_lt (h s hs).1

theorem declaredBefore_append_iff {es es' : List (Element α)} {line : Nat} {id : String}
    (h : ∀ e ∈ es', line ≤ e.line) :
    DeclaredBefore (es ++ es') line id ↔ DeclaredBefore es line id := by
  constructor
  · rintro ⟨e, he, hid, hline⟩
    rcases List.mem_append.mp he with he | he
    · exact ⟨e, he, hid, hline⟩
    · have := h e he
      omega
  · intro hdeclared
    exact hdeclared.append es'

/-- Statements in front of others are consistent if all of them are. -/
theorem Consistent.of_append (hss : Before n ss) (hss' : Behind n ss')
    (h : Consistent (ss ++ ss')) : Consistent ss := by
  have hsettings {β : Type} (f : Statement α → Option β) :
      (settings ss f).length ≤ (settings (ss ++ ss') f).length := by
    rw [settings, settings, List.filterMap_append, List.length_append]
    exact Nat.le_add_right _ _
  have helements : elements (ss ++ ss') = elements ss ++ elements ss' := List.filterMap_append
  refine ⟨(hsettings _).trans h.frames, (hsettings _).trans h.fps, (hsettings _).trans h.canvas,
    ?_, ?_, ?_⟩
  · have hids := h.ids
    rw [helements, List.map_append] at hids
    exact (List.nodup_append.mp hids).1
  · intro m hm
    have hmem : m ∈ moves (ss ++ ss') := by
      rw [moves, List.filterMap_append, List.mapIdx_append]
      exact List.mem_append_left _ hm
    have hbefore := h.moved m hmem
    rw [helements] at hbefore
    -- The elements of the statements behind are on later lines.
    refine (declaredBefore_append_iff fun e he => ?_).mp hbefore
    exact (hss.moves_lt m hm).le.trans (hss'.le_elements e he)
  · intro mark hmark id hid
    have hmem : mark ∈ marks (ss ++ ss') := by
      rw [marks, List.filterMap_append]
      exact List.mem_append_left _ hmark
    have hbefore := h.owners mark hmem id hid
    rw [helements] at hbefore
    refine (declaredBefore_append_iff fun e he => ?_).mp hbefore
    exact (hss.marks_lt mark hmark).le.trans (hss'.le_elements e he)

/-- No header of a statement is given by the statements in front of it. -/
structure HeaderFree (ss : List (Nat × Statement α)) (s : Statement α) : Prop where
  frames : ∀ count ∈ s.frames?, settings ss Statement.frames? = []
  fps : ∀ rate ∈ s.fps?, settings ss Statement.fps? = []
  canvas : ∀ size ∈ s.canvas?, settings ss Statement.canvas? = []

theorem length_settings_concat_iff {β : Type} (f : Statement α → Option β) :
    (settings (ss ++ [(n, s)]) f).length ≤ 1 ↔
      (settings ss f).length ≤ 1 ∧ ∀ value ∈ f s, settings ss f = [] := by
  rw [settings_concat, List.length_append]
  cases f s with
  | none => simp
  | some value =>
    simp only [Option.map_some, Option.toList_some, List.length_singleton, Option.mem_some_iff,
      forall_eq', ← List.length_eq_zero_iff]
    omega

theorem declared_eq_none_iff {draft : Draft α} {id : String} :
    draft.declared id = none ↔ ∀ e ∈ draft.elements, e.id ≠ id := by
  rw [Draft.declared, Option.map_eq_none_iff, List.find?_eq_none]
  simp only [decide_eq_true_eq, ne_eq]

/-- A name is declared in front of a line just if the statements in front of it declare it. -/
theorem isSome_declared_iff (h : Before n ss) {id : String} :
    ((draftOf ss).declared id).isSome = true ↔ DeclaredBefore (elements ss) n id := by
  rw [Draft.declared, Option.isSome_map, List.find?_isSome]
  simp only [decide_eq_true_eq, DeclaredBefore]
  refine exists_congr fun e => and_congr_right fun he => ?_
  exact (and_iff_left (h.elements_lt e he)).symm

theorem named_iff {scope : Scope} (order : Nat) :
    s.Named scope ↔
      (∀ e ∈ s.element?, scope.declared e.id = none ∧ scope.sourceExists e.source = true) ∧
      (∀ move ∈ s.move? n, (scope.declared (move order).elementId).isSome = true) ∧
      ∀ mark ∈ s.mark?, ∀ id ∈ mark.elementId, (scope.declared id).isSome = true := by
  cases s <;> simp [Statement.Named, Statement.element?, Statement.move?, Statement.mark?]

/-- The names stay distinct just if the next statement declares none of them again. -/
theorem nodup_ids_concat_iff :
    ((elements (ss ++ [(n, s)])).map Element.id).Nodup ↔
      ((elements ss).map Element.id).Nodup ∧
        ∀ e ∈ s.element?, (draftOf ss).declared e.id = none := by
  rw [elements_concat, List.map_append, List.nodup_append]
  cases s.element? with
  | none => simp
  | some e => simp [declared_eq_none_iff, draftOf]

/-- The elements of the next statement are not declared in front of its own line. -/
theorem declaredBefore_concat_iff (hs : s.StandsOn n) {line : Nat} (hline : line ≤ n)
    {id : String} :
    DeclaredBefore (elements ss ++ s.element?.toList) line id ↔
      DeclaredBefore (elements ss) line id := by
  refine declaredBefore_append_iff fun e he => ?_
  exact hline.trans (hs.1 e (Option.mem_toList.mp he)).ge

/-- All moves are of elements declared in front of them just if the next one is, too. -/
theorem moved_concat_iff (hss : Before n ss) (hs : s.StandsOn n) :
    (∀ m ∈ moves (ss ++ [(n, s)]), DeclaredBefore (elements (ss ++ [(n, s)])) m.line m.elementId) ↔
      (∀ m ∈ moves ss, DeclaredBefore (elements ss) m.line m.elementId) ∧
        ∀ move ∈ s.move? n,
          ((draftOf ss).declared (move (moves ss).length).elementId).isSome = true := by
  rw [moves_concat, elements_concat, List.forall_mem_append]
  refine and_congr (forall₂_congr fun m hm => ?_) ?_
  · exact declaredBefore_concat_iff hs (hss.moves_lt m hm).le
  · simp only [List.forall_mem_map, Option.mem_toList]
    refine forall₂_congr fun move hmove => ?_
    rw [line_of_move? hmove, declaredBefore_concat_iff hs (Nat.le_refl n), isSome_declared_iff hss]

/-- All lines belong to elements declared in front of them just if the next one does, too. -/
theorem owners_concat_iff (hss : Before n ss) (hs : s.StandsOn n) :
    (∀ mark ∈ marks (ss ++ [(n, s)]), ∀ id ∈ mark.elementId,
        DeclaredBefore (elements (ss ++ [(n, s)])) mark.line id) ↔
      (∀ mark ∈ marks ss, ∀ id ∈ mark.elementId, DeclaredBefore (elements ss) mark.line id) ∧
        ∀ mark ∈ s.mark?, ∀ id ∈ mark.elementId, ((draftOf ss).declared id).isSome = true := by
  rw [marks_concat, elements_concat, List.forall_mem_append]
  refine and_congr (forall₂_congr fun mark hmark => forall₂_congr fun id _ => ?_) ?_
  · exact declaredBefore_concat_iff hs (hss.marks_lt mark hmark).le
  · simp only [Option.mem_toList]
    refine forall₂_congr fun mark hmark => forall₂_congr fun id _ => ?_
    rw [hs.2 mark hmark, declaredBefore_concat_iff hs (Nat.le_refl n), isSome_declared_iff hss]

/-- The statement behind consistent ones gives no header again, names only what is declared, and
declares nothing again. -/
theorem consistent_concat_iff (hss : Before n ss) (hs : s.StandsOn n) :
    Consistent (ss ++ [(n, s)]) ↔
      Consistent ss ∧ HeaderFree ss s ∧ s.Named ⟨n, (draftOf ss).declared, fun _ => true⟩ := by
  rw [named_iff (n := n) (moves ss).length]
  constructor
  · intro h
    obtain ⟨hframes, hnoFrames⟩ := (length_settings_concat_iff _).mp h.frames
    obtain ⟨hfps, hnoFps⟩ := (length_settings_concat_iff _).mp h.fps
    obtain ⟨hcanvas, hnoCanvas⟩ := (length_settings_concat_iff _).mp h.canvas
    obtain ⟨hids, hfresh⟩ := nodup_ids_concat_iff.mp h.ids
    obtain ⟨hmoved, hmove⟩ := (moved_concat_iff hss hs).mp h.moved
    obtain ⟨howners, hmark⟩ := (owners_concat_iff hss hs).mp h.owners
    exact ⟨⟨hframes, hfps, hcanvas, hids, hmoved, howners⟩, ⟨hnoFrames, hnoFps, hnoCanvas⟩,
      fun e he => ⟨hfresh e he, rfl⟩, hmove, hmark⟩
  · rintro ⟨h, hfree, hfresh, hmove, hmark⟩
    exact ⟨(length_settings_concat_iff _).mpr ⟨h.frames, hfree.frames⟩,
      (length_settings_concat_iff _).mpr ⟨h.fps, hfree.fps⟩,
      (length_settings_concat_iff _).mpr ⟨h.canvas, hfree.canvas⟩,
      nodup_ids_concat_iff.mpr ⟨h.ids, fun e he => (hfresh e he).1⟩,
      (moved_concat_iff hss hs).mpr ⟨h.moved, hmove⟩,
      (owners_concat_iff hss hs).mpr ⟨h.owners, hmark⟩⟩

theorem set_eq_ok_iff {β : Type} {f : Statement α → Option β} {header : Header} {value : β}
    {setting : Setting β} :
    Setting.set header (settings ss f).head? value n = .ok setting ↔
      settings ss f = [] ∧ setting = ⟨value, n⟩ := by
  cases settings ss f with
  | nil =>
    rw [List.head?_nil, Setting.set, Except.ok.injEq, eq_comm]
    exact (and_iff_right rfl).symm
  | cons first rest => exact iff_of_false (fun h => by cases h) (fun h => by cases h.1)

/-- The draft of statements with one more behind them. -/
theorem draftOf_concat :
    draftOf (ss ++ [(n, s)]) =
      { frames := (draftOf ss).frames.or (s.frames?.map fun count => ⟨count, n⟩)
        fps := (draftOf ss).fps.or (s.fps?.map fun rate => ⟨rate, n⟩)
        canvas := (draftOf ss).canvas.or (s.canvas?.map fun size => ⟨size, n⟩)
        elements := (draftOf ss).elements ++ s.element?.toList
        moves := (draftOf ss).moves ++
          (s.move? n).toList.map fun move => move (draftOf ss).moves.length
        lines := (draftOf ss).lines ++ s.mark?.toList
        ranges := (draftOf ss).note s.range? n } := by
  have hranges : (s.range?.map fun r => (r, n)).toList = s.range?.toList.map fun r => (r, n) := by
    cases s.range? <;> rfl
  simp only [draftOf, Draft.note, settings_concat, elements_concat, moves_concat, marks_concat,
    filterMap_concat, List.head?_append, Option.head?_toList, hranges]

theorem setHeader_eq_ok_iff {β : Type} {f : Statement α → Option β} {header : Header} {value : β}
    {draft : Draft α} (change : Setting β → Draft α) :
    (Setting.set header (settings ss f).head? value n >>= fun setting => .ok (change setting)) =
      .ok draft ↔ settings ss f = [] ∧ draft = change ⟨value, n⟩ := by
  rw [bind_eq_ok_iff]
  simp only [set_eq_ok_iff, and_assoc, exists_and_left, exists_eq_left, Except.ok.injEq]
  exact and_congr_right fun _ => eq_comm

/-- A statement is added to the draft of others, unless they give its header. -/
theorem add_draftOf_eq_ok_iff {draft : Draft α} :
    (draftOf ss).add n s = .ok draft ↔ HeaderFree ss s ∧ draft = draftOf (ss ++ [(n, s)]) := by
  rw [draftOf_concat]
  cases s with
  | frames count =>
    have hfree : HeaderFree ss (.frames count) ↔ settings ss Statement.frames? = [] :=
      ⟨fun h => h.frames count rfl, fun h => ⟨fun _ _ => h, nofun, nofun⟩⟩
    rw [hfree]
    refine (setHeader_eq_ok_iff _).trans (and_congr_right fun hnone => ?_)
    simp [draftOf, hnone, Draft.note]
  | fps rate =>
    have hfree : HeaderFree ss (.fps rate) ↔ settings ss Statement.fps? = [] :=
      ⟨fun h => h.fps rate rfl, fun h => ⟨nofun, fun _ _ => h, nofun⟩⟩
    rw [hfree]
    refine (setHeader_eq_ok_iff _).trans (and_congr_right fun hnone => ?_)
    simp [draftOf, hnone, Draft.note]
  | canvas size =>
    have hfree : HeaderFree ss (.canvas size) ↔ settings ss Statement.canvas? = [] :=
      ⟨fun h => h.canvas size rfl, fun h => ⟨nofun, nofun, fun _ _ => h⟩⟩
    rw [hfree]
    refine (setHeader_eq_ok_iff _).trans (and_congr_right fun hnone => ?_)
    simp [draftOf, hnone, Draft.note]
  | element | move | line =>
    rw [and_iff_right ⟨nofun, nofun, nofun⟩, Draft.add, Except.ok.injEq, eq_comm]
    simp [draftOf, Draft.note]

end Concat

section Compiling

variable [Scalar α] {ss : List (Nat × Statement α)} {n : Nat} {lines : List (List String)}

/-- The statements on the lines of a script, given the tokens of each line and the number of the
first. Lines without tokens say nothing. -/
inductive DerivesLines : Nat → List (List String) → List (Nat × Statement α) → Prop
  | nil {n : Nat} : DerivesLines n [] []
  | blank {n : Nat} {lines : List (List String)} {ss : List (Nat × Statement α)}
      (hrest : DerivesLines (n + 1) lines ss) : DerivesLines n ([] :: lines) ss
  | statement {n : Nat} {tokens : List String} {lines : List (List String)} {s : Statement α}
      {ss : List (Nat × Statement α)} (h : Derives n tokens s)
      (hrest : DerivesLines (n + 1) lines ss) :
      DerivesLines n (tokens :: lines) ((n, s) :: ss)

theorem Derives.standsOn {tokens : List String} {s : Statement α} (h : Derives n tokens s) :
    s.StandsOn n := by
  cases h with
  | @element id source words clauses =>
    refine ⟨fun e he => ?_, nofun⟩
    obtain rfl := Option.some.inj he
    exact (foldl_set_fixes clauses (plainElement id source n)).2.2
  | line =>
    refine ⟨nofun, fun mark hmark => ?_⟩
    obtain rfl := Option.some.inj hmark
    rfl
  | _ => exact ⟨nofun, nofun⟩

theorem Derives.tokens_ne_nil {tokens : List String} {s : Statement α} (h : Derives n tokens s) :
    tokens ≠ [] := by
  cases h <;> exact List.cons_ne_nil _ _

theorem DerivesLines.behind (h : DerivesLines n lines ss) : Behind n ss := by
  induction h with
  | nil => exact List.forall_mem_nil _
  | blank hrest ih => exact fun s hs => ⟨Nat.le_of_succ_le (ih s hs).1, (ih s hs).2⟩
  | statement h hrest ih =>
    refine List.forall_mem_cons.mpr ⟨⟨Nat.le_refl _, h.standsOn⟩, ?_⟩
    exact fun s hs => ⟨Nat.le_of_succ_le (ih s hs).1, (ih s hs).2⟩

/-- A line behind consistent statements is added to their draft just if it is empty, or a statement
that keeps them consistent. -/
theorem addLine_draftOf_eq_ok_iff {tokens : List String} {draft : Draft α} (hss : Before n ss)
    (h : Consistent ss) :
    (draftOf ss).addLine (fun _ => true) n tokens = .ok draft ↔
      tokens = [] ∧ draft = draftOf ss ∨
      ∃ s, Derives n tokens s ∧ Consistent (ss ++ [(n, s)]) ∧ draft = draftOf (ss ++ [(n, s)]) := by
  cases tokens with
  | nil =>
    rw [Draft.addLine, Except.ok.injEq, eq_comm]
    constructor
    · intro hdraft
      exact .inl ⟨rfl, hdraft⟩
    · rintro (⟨-, hdraft⟩ | ⟨s, hs, -⟩)
      · exact hdraft
      · exact absurd rfl hs.tokens_ne_nil
  | cons token tokens =>
    refine bind_eq_ok_iff.trans ?_
    simp only [statement_eq_ok_iff, add_draftOf_eq_ok_iff, reduceCtorEq, false_and, false_or]
    refine exists_congr fun s => ?_
    constructor
    · rintro ⟨⟨hs, hnamed⟩, hfree, hdraft⟩
      exact ⟨hs, (consistent_concat_iff hss hs.standsOn).mpr ⟨h, hfree, hnamed⟩, hdraft⟩
    · rintro ⟨hs, hall, hdraft⟩
      obtain ⟨-, hfree, hnamed⟩ := (consistent_concat_iff hss hs.standsOn).mp hall
      exact ⟨⟨hs, hnamed⟩, hfree, hdraft⟩

/-- Lines behind consistent statements are added to their draft just if they are statements that go
together with them. -/
theorem addLines_draftOf_eq_ok_iff {draft : Draft α} (hss : Before n ss) (h : Consistent ss) :
    (draftOf ss).addLines (fun _ => true) n lines = .ok draft ↔
      ∃ ss', DerivesLines n lines ss' ∧ Consistent (ss ++ ss') ∧ draft = draftOf (ss ++ ss') := by
  -- What the first line says goes over to the statements that the other lines are behind.
  induction lines generalizing ss n with
  | nil =>
    rw [Draft.addLines, Except.ok.injEq, eq_comm]
    constructor
    · intro hdraft
      exact ⟨[], .nil, by rwa [List.append_nil], by rwa [List.append_nil]⟩
    · rintro ⟨ss', hlines, -, hdraft⟩
      cases hlines
      rwa [List.append_nil] at hdraft
  | cons tokens lines ih =>
    rw [Draft.addLines]
    constructor
    · intro hlines
      split at hlines
      · cases hlines
      next draft' hline =>
        obtain ⟨rfl, rfl⟩ | ⟨s, hs, hall, rfl⟩ := (addLine_draftOf_eq_ok_iff hss h).mp hline
        · obtain ⟨ss', hrest, hss', hdraft⟩ := (ih hss.succ h).mp hlines
          exact ⟨ss', .blank hrest, hss', hdraft⟩
        · obtain ⟨ss', hrest, hss', hdraft⟩ := (ih (hss.concat hs.standsOn) hall).mp hlines
          rw [← List.append_cons] at hss' hdraft
          exact ⟨(n, s) :: ss', .statement hs hrest, hss', hdraft⟩
    · rintro ⟨ss', hlines, hss', hdraft⟩
      cases hlines with
      | blank hrest =>
        rw [(addLine_draftOf_eq_ok_iff hss h).mpr (.inl ⟨rfl, rfl⟩)]
        exact (ih hss.succ h).mpr ⟨ss', hrest, hss', hdraft⟩
      | @statement _ _ _ s ss' hs hrest =>
        rw [List.append_cons] at hss' hdraft
        have hall := hss'.of_append (hss.concat hs.standsOn) hrest.behind
        rw [(addLine_draftOf_eq_ok_iff hss h).mpr (.inr ⟨s, hs, hall, rfl⟩)]
        exact (ih (hss.concat hs.standsOn) hall).mpr ⟨ss', hrest, hss', hdraft⟩

theorem DerivesLines.exists_derives (h : DerivesLines n lines ss) :
    ∀ s ∈ ss, ∃ tokens, Derives s.1 tokens s.2 := by
  induction h with
  | nil => exact List.forall_mem_nil _
  | blank hrest ih => exact ih
  | statement h hrest ih => exact List.forall_mem_cons.mpr ⟨⟨_, h⟩, ih⟩

/-- The frame rates of statements are positive. -/
theorem DerivesLines.fps_pos (h : DerivesLines n lines ss) :
    ∀ setting ∈ settings ss Statement.fps?, 0 < setting.value := by
  intro setting hsetting
  obtain ⟨⟨line, s⟩, hs, hsome⟩ := List.mem_filterMap.mp hsetting
  obtain ⟨rate, hrate, rfl⟩ := Option.map_eq_some_iff.mp hsome
  obtain ⟨tokens, hderives⟩ := h.exists_derives (line, s) hs
  dsimp only at hderives hrate
  cases hderives with
  | fps ht hpos =>
    obtain rfl := Option.some.inj hrate
    exact hpos
  | _ => cases hrate

omit [Scalar α] in
/-- No range that the draft has noted ends too late just if none of a statement does. -/
theorem find?_ranges_eq_none_iff {total : Nat} :
    (draftOf ss).ranges.find? (fun r => total < r.1.last) = none ↔
      ∀ s ∈ ss, ∀ r ∈ s.2.range?, r.last ≤ total := by
  simp only [draftOf, List.find?_eq_none, decide_eq_true_eq, Nat.not_lt]
  constructor
  · intro hle s hs r hr
    exact hle (r, s.1) (List.mem_filterMap.mpr ⟨s, hs, Option.map_eq_some_iff.mpr ⟨r, hr, rfl⟩⟩)
  · intro hle r hr
    obtain ⟨s, hs, hsome⟩ := List.mem_filterMap.mp hr
    obtain ⟨r, hrange, rfl⟩ := Option.map_eq_some_iff.mp hsome
    exact hle s hs r hrange

omit [Scalar α] in
/-- A draft of consistent statements is a timeline just if they are admissible. -/
theorem timeline_draftOf_eq_ok_iff {t : Timeline α} (h : Consistent ss)
    (hfps : ∀ setting ∈ settings ss Statement.fps?, 0 < setting.value) :
    (draftOf ss).timeline none = .ok t ↔ ∃ total, Admissible ss total ∧ t = depicted ss total := by
  have hrate : 0 < ((settings ss Statement.fps?).head?.map Setting.value).getD defaultFrameRate := by
    cases hset : settings ss Statement.fps? with
    | nil => decide
    | cons setting rest => exact hfps setting (hset ▸ List.mem_cons_self)
  -- Consistent statements give the number of frames once at most, and a timeline needs it.
  match hframes : settings ss Statement.frames?, h.frames with
  | [], _ =>
    have hnone : (draftOf ss).frames = none := congrArg List.head? hframes
    rw [Draft.timeline, hnone]
    refine iff_of_false (fun heq => by cases heq) ?_
    rintro ⟨total, hadmissible, -⟩
    have htotal := hadmissible.totalFrames
    rw [hframes] at htotal
    cases htotal
  | [⟨count, line⟩], _ =>
    have hsome : (draftOf ss).frames = some ⟨count, line⟩ := congrArg List.head? hframes
    rw [Draft.timeline, hsome]
    dsimp only
    constructor
    · intro ht
      split at ht
      · cases ht
      next hfind =>
        refine ⟨count, ⟨h, congrArg _ hframes, find?_ranges_eq_none_iff.mp hfind⟩, ?_⟩
        rw [Option.getD_none] at ht
        exact (Except.ok.inj ((if_pos hrate).symm.trans ht)).symm
    · rintro ⟨total, hadmissible, rfl⟩
      have htotal := hadmissible.totalFrames
      rw [hframes] at htotal
      obtain rfl : count = total := (List.cons.inj htotal).1
      rw [find?_ranges_eq_none_iff.mpr hadmissible.ranges]
      exact if_pos hrate

/-- A text whose lines are empty or statements, and whose statements go together. -/
def IsScript (text : String) (ss : List (Nat × Statement α)) (total : Nat) : Prop :=
  ∃ lines, SplitLines text.toList lines ∧ DerivesLines 1 (lines.map lineTokens) ss ∧
    Admissible ss total

theorem compile_eq_ok_iff (text : String) (t : Timeline α) :
    compile {} text = .ok t ↔ ∃ ss total, IsScript text ss total ∧ t = depicted ss total := by
  -- Compiling begins with the draft of no statements.
  have hempty : Consistent ([] : List (Nat × Statement α)) :=
    ⟨Nat.zero_le 1, Nat.zero_le 1, Nat.zero_le 1, List.nodup_nil, List.forall_mem_nil _,
      List.forall_mem_nil _⟩
  obtain ⟨lines, hlines⟩ := exists_splitLines text.toList
  have htokens : scriptLines text = lines.map lineTokens := map_lineTokens_of_splitLines hlines
  have hcompile : compile {} text = .ok t ↔ ∃ draft,
      (draftOf []).addLines (fun _ => true) 1 (scriptLines text) = .ok draft ∧
        draft.timeline none = .ok t := bind_eq_ok_iff
  rw [hcompile]
  simp only [addLines_draftOf_eq_ok_iff (List.forall_mem_nil _) hempty, List.nil_append]
  constructor
  · rintro ⟨_, ⟨ss, hderives, hconsistent, rfl⟩, ht⟩
    obtain ⟨total, hadmissible, rfl⟩ :=
      (timeline_draftOf_eq_ok_iff hconsistent hderives.fps_pos).mp ht
    exact ⟨ss, total, ⟨lines, hlines, htokens ▸ hderives, hadmissible⟩, rfl⟩
  · rintro ⟨ss, total, ⟨lines', hlines', hderives, hadmissible⟩, rfl⟩
    rw [← map_lineTokens_of_splitLines hlines'] at hderives
    exact ⟨_, ⟨ss, hderives, hadmissible.toConsistent, rfl⟩,
      (timeline_draftOf_eq_ok_iff hadmissible.toConsistent hderives.fps_pos).mpr
        ⟨total, hadmissible, rfl⟩⟩

/-- Compiling takes the scripts and nothing else, and makes of a script what its statements
describe, in their order. -/
theorem compile_accepts_language (text : String) :
    ((∃ t : Timeline α, compile {} text = .ok t) ↔
      ∃ (ss : List (Nat × Statement α)) (total : Nat), IsScript text ss total) ∧
    ∀ t : Timeline α, compile {} text = .ok t ↔
      ∃ ss total, IsScript text ss total ∧ t = depicted ss total := by
  refine ⟨?_, compile_eq_ok_iff text⟩
  constructor
  · rintro ⟨t, ht⟩
    obtain ⟨ss, total, hscript, -⟩ := (compile_eq_ok_iff text t).mp ht
    exact ⟨ss, total, hscript⟩
  · rintro ⟨ss, total, hscript⟩
    exact ⟨_, (compile_eq_ok_iff text _).mpr ⟨ss, total, hscript, rfl⟩⟩

end Compiling

end Statements

end Flipbook.Script
