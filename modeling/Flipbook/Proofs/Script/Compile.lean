import Flipbook.Proofs.Script.Reading
import Flipbook.Script.Compile

/-!
# Compiled scripts are well formed

A draft grows by one statement at a time. Whatever its statements have established so far goes on to
hold when the next line is added, so that a draft that reaches the end of the script is resolved,
and the check of the frame ranges at the end covers all of them.

## Main results

- `Draft.Sound.addLines`: the invariant of drafts is kept by a whole script;
- `compile_wellFormed`: a compiled timeline is well formed.
-/

namespace Flipbook.Script

variable {α : Type}

/-- Frame ranges that are in order and that are known together with their lines. -/
def Noted (ranges : List FrameRange) (notes : List (FrameRange × Nat)) : Prop :=
  ∀ r ∈ ranges, r.first ≤ r.last ∧ ∃ line, (r, line) ∈ notes

namespace Draft

variable {draft : Draft α}

theorem ne_of_declared_eq_none {id : String} (h : draft.declared id = none) :
    ∀ e ∈ draft.elements, e.id ≠ id := by
  rw [declared, Option.map_eq_none_iff, List.find?_eq_none] at h
  intro e he heq
  exact h e he (decide_eq_true heq)

/-- When the ranges grow by at most one, noting it keeps them noted. -/
theorem noted_note {old new : List FrameRange} {range : Option FrameRange} {line : Nat}
    (h : Noted old draft.ranges) (hrange : ∀ r ∈ range, r.first ≤ r.last)
    (hnew : ∀ r ∈ new, r ∈ old ∨ r ∈ range) : Noted new (draft.note range line) := by
  intro r hr
  rcases hnew r hr with hold | hadded
  · obtain ⟨hordered, l, hl⟩ := h r hold
    exact ⟨hordered, l, List.mem_append_left _ hl⟩
  · have hmem : (r, line) ∈ range.toList.map fun r => (r, line) :=
      List.mem_map_of_mem (Option.mem_toList.mpr hadded)
    exact ⟨hrange r hadded, line, List.mem_append_right _ hmem⟩

end Draft

theorem set_yields {β : Type} (header : Header) (old : Option (Setting β)) (value : β)
    (line : Nat) : Yields (Setting.set header old value line) fun s => s.value = value := by
  unfold Setting.set
  split
  · exact yields_error _
  · exact yields_ok rfl

variable [Scalar α]

/-- What holds of a draft whose statements stand in front of the line `next`. -/
structure Draft.Sound (draft : Draft α) (next : Nat) : Prop where
  resolved : Resolved draft.elements draft.moves draft.lines
  elements_lt : ∀ e ∈ draft.elements, e.line < next
  moves_lt : ∀ m ∈ draft.moves, m.line < next
  lines_lt : ∀ l ∈ draft.lines, l.line < next
  /-- No range of a statement escapes the check at the end. -/
  noted : Noted (frameRanges draft.elements draft.moves draft.lines) draft.ranges
  frames : ∀ s ∈ draft.frames, 1 ≤ s.value ∧ s.value ≤ greatestInteger
  fps : ∀ s ∈ draft.fps, 0 < s.value
  canvas : ∀ s ∈ draft.canvas, s.value.WellFormed

namespace Draft

variable {draft : Draft α} {next : Nat}

theorem sound_empty (next : Nat) : ({} : Draft α).Sound next where
  resolved := resolved_nil
  elements_lt := List.forall_mem_nil _
  moves_lt := List.forall_mem_nil _
  lines_lt := List.forall_mem_nil _
  noted := List.forall_mem_nil _
  frames _ hs := (Option.not_mem_none _ hs).elim
  fps _ hs := (Option.not_mem_none _ hs).elim
  canvas _ hs := (Option.not_mem_none _ hs).elim

theorem Sound.succ (h : draft.Sound next) : draft.Sound (next + 1) where
  resolved := h.resolved
  elements_lt e he := Nat.lt_succ_of_lt (h.elements_lt e he)
  moves_lt m hm := Nat.lt_succ_of_lt (h.moves_lt m hm)
  lines_lt l hl := Nat.lt_succ_of_lt (h.lines_lt l hl)
  noted := h.noted
  frames := h.frames
  fps := h.fps
  canvas := h.canvas

theorem Sound.declaredBefore (h : draft.Sound next) {id : String}
    (hid : draft.declared id ≠ none) : DeclaredBefore draft.elements next id := by
  rw [declared, ne_eq, Option.map_eq_none_iff, ← ne_eq, Option.ne_none_iff_exists'] at hid
  obtain ⟨e, he⟩ := hid
  have hmem : e ∈ draft.elements := List.mem_of_find?_eq_some he
  have hsame := List.find?_some he
  rw [decide_eq_true_iff] at hsame
  exact ⟨e, hmem, hsame, h.elements_lt e hmem⟩

/-- A statement that fits what is declared in front of it keeps the draft sound. -/
theorem Sound.add (h : draft.Sound next) {sourceExists : String → Bool} {s : Statement α}
    (hs : s.Fits ⟨next, draft.declared, sourceExists⟩) :
    Yields (draft.add next s) fun d => d.Sound (next + 1) := by
  have hsucc := h.succ
  -- A header sets one field. All else is added on line `next`, behind what was declared before.
  cases s with
  | frames count =>
    refine (set_yields _ _ count next).bind ?_
    rintro setting rfl
    refine yields_ok { hsucc with frames := ?_ }
    intro s hsome
    rw [← Option.some.inj hsome]
    exact hs
  | fps rate =>
    refine (set_yields _ _ rate next).bind ?_
    rintro setting rfl
    refine yields_ok { hsucc with fps := ?_ }
    intro s hsome
    rw [← Option.some.inj hsome]
    exact hs
  | canvas size =>
    refine (set_yields _ _ size next).bind ?_
    rintro setting rfl
    refine yields_ok { hsucc with canvas := ?_ }
    intro s hsome
    rw [← Option.some.inj hsome]
    exact hs
  | element e =>
    obtain ⟨hfree, he⟩ := hs
    have hline : e.line = next := he.line_eq
    refine yields_ok { hsucc with resolved := ?_, elements_lt := ?_, noted := ?_ }
    · apply h.resolved.addElement (ne_of_declared_eq_none hfree) _ he.wellFormed
      rw [hline]
      exact h.elements_lt
    · exact List.forall_mem_append.mpr
        ⟨hsucc.elements_lt, List.forall_mem_singleton.mpr (by omega)⟩
    · exact noted_note h.noted he.visible fun r hr => mem_frameRanges_element hr
  | move id range ops =>
    obtain ⟨hid, hrange, hops⟩ := hs
    refine yields_ok { hsucc with resolved := ?_, moves_lt := ?_, noted := ?_ }
    · exact h.resolved.addMove rfl h.moves_lt hops (h.declaredBefore hid)
    · exact List.forall_mem_append.mpr
        ⟨hsucc.moves_lt, List.forall_mem_singleton.mpr (Nat.lt_succ_self next)⟩
    · apply noted_note h.noted
      · intro r hr
        rwa [← Option.some.inj hr]
      · intro r hr
        rcases mem_frameRanges_move hr with hold | rfl
        · exact .inl hold
        · exact .inr rfl
  | line mark =>
    obtain ⟨howner, hrange, hends, hline⟩ := hs
    refine yields_ok { hsucc with resolved := ?_, lines_lt := ?_, noted := ?_ }
    · apply h.resolved.addMark _ hends
      · intro id hid
        rw [hline]
        exact h.declaredBefore (howner id hid)
      · rw [hline]
        exact h.lines_lt
    · refine List.forall_mem_append.mpr ⟨hsucc.lines_lt, List.forall_mem_singleton.mpr ?_⟩
      rw [hline]
      exact Nat.lt_succ_self next
    · exact noted_note h.noted hrange fun r hr => mem_frameRanges_mark hr

variable [FiniteUnits α]

theorem Sound.addLine (h : draft.Sound next) (sourceExists : String → Bool)
    (tokens : List String) :
    Yields (draft.addLine sourceExists next tokens) fun d => d.Sound (next + 1) := by
  unfold Draft.addLine
  split
  · exact yields_ok h.succ
  · refine (statement_yields _ tokens).bind ?_
    intro s hs
    exact h.add hs

/-- A draft stays sound, line by line, up to the end of the script. -/
theorem Sound.addLines (h : draft.Sound next) (sourceExists : String → Bool)
    (ls : List (List String)) :
    Yields (draft.addLines sourceExists next ls) fun d => d.Sound (next + ls.length) := by
  induction ls generalizing draft next with
  | nil => exact yields_ok h
  | cons tokens ls ih =>
    have hline := h.addLine sourceExists tokens
    unfold Draft.addLines
    split
    · exact yields_error _
    · rename_i d hd
      have hrest := ih (hline d hd)
      rwa [Nat.add_assoc, Nat.add_comm 1] at hrest

omit [FiniteUnits α] in
theorem Sound.timeline (h : draft.Sound next) (frameRate : Option Binary64) :
    Yields (draft.timeline frameRate) Timeline.WellFormed := by
  unfold Draft.timeline
  split
  · exact yields_error _
  · rename_i frames hframes
    obtain ⟨hpos, hle⟩ := h.frames frames hframes
    split
    · exact yields_error _
    · rename_i hfind
      -- No range was found that ends behind the last frame, and every range was looked at.
      have hwithin : ∀ r ∈ frameRanges draft.elements draft.moves draft.lines,
          r.first ≤ r.last ∧ r.last ≤ frames.value := by
        intro r hr
        obtain ⟨hordered, line, hnote⟩ := h.noted r hr
        have hend := List.find?_eq_none.mp hfind _ hnote
        rw [decide_eq_true_iff, Nat.not_lt] at hend
        exact ⟨hordered, hend⟩
      have hcanvas : ((draft.canvas.map Setting.value).getD defaultCanvas).WellFormed := by
        cases hsize : draft.canvas with
        | none => exact ⟨by decide, by decide, by decide, by decide⟩
        | some size => exact h.canvas size hsize
      dsimp only
      split
      · rename_i hrate
        exact yields_ok ⟨h.resolved, hwithin, hpos, hle, hrate, hcanvas⟩
      · exact yields_error _

end Draft

/-- Whatever compiling yields is well formed. -/
theorem compile_yields [FiniteUnits α] (options : Options) (text : String) :
    Yields (compile options text) (Timeline.WellFormed (α := α)) := by
  have hlines := (Draft.sound_empty (α := α) 1).addLines
    (options.sourceExists.getD fun _ => true) (scriptLines text)
  exact hlines.bind fun draft hdraft => hdraft.timeline options.frameRate

/-- A timeline that a script compiles to is well formed. -/
theorem compile_wellFormed [FiniteUnits α] {options : Options} {text : String}
    {timeline : Timeline α} (h : compile options text = .ok timeline) : timeline.WellFormed :=
  compile_yields options text timeline h

/-- A script with an element that blinks and moves, and a line that belongs to it. -/
def blinkingScript : String :=
  "frames 8\nelement a arrow.plt translate 1 2.5 blink 2 1\n" ++
    "move a 0..4 rotate 90 scale 2 # while it blinks\nline 1..8 0 0 10 10 with a"

theorem wellFormed_blinkingScript : ∃ timeline : Timeline Float,
    compile {} blinkingScript = .ok timeline ∧ timeline.WellFormed := by
  have hok : (compile {} blinkingScript : Except Error (Timeline Float)).isOk = true := by
    decide +kernel
  cases h : (compile {} blinkingScript : Except Error (Timeline Float)) with
  | error e =>
    rw [h] at hok
    cases hok
  | ok timeline => exact ⟨timeline, rfl, compile_wellFormed h⟩

end Flipbook.Script
