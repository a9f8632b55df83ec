import Flipbook.Proofs.Script.Layout
import Mathlib.Data.List.Perm.Basic

/-!
# Headers anywhere in a script

The lines that give the number of frames, the frame rate and the canvas can stand anywhere in a
script, also at its end, and so can the lines that are empty. No statement reads a header, so a
header and the line next to it can change places. What happens then to the numbers of the lines is
left aside: each line is added to the draft as if its number was zero.

## Main definitions

* `isBody`: the lines that declare an element, move one or draw a line;
* `Timeline.unnumbered`: a timeline without the lines of its script;
* `Draft.accept`: adds a line, whatever its number.

## Main results

* `accept_comm`: a header and another line change places;
* `foldl_eq_of_perm`: items change places with all others or keep their sequence;
* `compile_headers_anywhere`: a script with its headers elsewhere compiles to the same timeline.
-/

namespace Flipbook

/-- A timeline without the lines of its script. -/
def Timeline.unnumbered {α : Type} (t : Timeline α) : Timeline α :=
  t.relocate fun _ => 0

/-- Whether a line declares an element, moves one or draws a line. -/
def Script.isBody : List String → Bool
  | [] => false
  | keyword :: _ => keyword = "element" || keyword = "move" || keyword = "line"

section Fold

variable {β γ : Type} {f : β → γ → β} {p : γ → Bool} {xs ys : List γ}

/-- Items that change places with all others can wait until the others are done. -/
theorem foldl_eq_foldl_filter (hcomm : ∀ x, p x = false → ∀ y z, f (f z x) y = f (f z y) x)
    (z : β) : xs.foldl f z = (xs.filter fun x => !p x).foldl f ((xs.filter p).foldl f z) := by
  induction xs generalizing z with
  | nil => rfl
  | cons x xs ih =>
    cases hx : p x with
    | true =>
      rw [List.filter_cons_of_pos hx, List.filter_cons_of_neg (by simp [hx])]
      exact ih (f z x)
    | false =>
      rw [List.filter_cons_of_neg (by simp [hx]), List.filter_cons_of_pos (by simp [hx]),
        List.foldl_cons, List.foldl_cons, ih]
      -- The item passes those that keep their sequence, one by one.
      congr 1
      exact List.foldl_hom (fun z => f z x) fun z y => hcomm x hx y z

/-- Items may change places with all others, or else keep their sequence. -/
theorem foldl_eq_of_perm (hcomm : ∀ x, p x = false → ∀ y z, f (f z x) y = f (f z y) x)
    (hperm : ys.Perm xs) (hkept : ys.filter p = xs.filter p) (z : β) :
    ys.foldl f z = xs.foldl f z := by
  calc ys.foldl f z = (ys.filter fun x => !p x).foldl f ((ys.filter p).foldl f z) :=
        foldl_eq_foldl_filter hcomm z
    _ = (xs.filter fun x => !p x).foldl f ((ys.filter p).foldl f z) := by
        refine (hperm.filter _).foldl_eq' (fun x hx y _ z => ?_) _
        exact hcomm x (by simpa using (List.mem_filter.mp hx).2) y z
    _ = (xs.filter fun x => !p x).foldl f ((xs.filter p).foldl f z) := by rw [hkept]
    _ = xs.foldl f z := (foldl_eq_foldl_filter hcomm z).symm

end Fold

namespace Script

variable {α : Type}

/-- A statement that gives a header. -/
def Statement.IsHeader : Statement α → Prop
  | .frames _ | .fps _ | .canvas _ => True
  | _ => False

section Statements

variable [Scalar α] {keyword : String} {tokens : List String} {scope scope' : Scope}

/-- What a line outside the body says does not depend on other lines. -/
theorem statement_eq_of_not_isBody (h : isBody (keyword :: tokens) = false) :
    (statement scope (keyword :: tokens) : Except Problem (Statement α)) =
      statement scope' (keyword :: tokens) := by
  unfold statement
  dsimp only [next, bind, Except.bind]
  split
  · rfl
  · rfl
  · rfl
  · cases h
  · cases h
  · cases h
  · rfl

theorem isHeader_of_not_isBody (h : isBody (keyword :: tokens) = false) {s : Statement α}
    (hs : statement scope (keyword :: tokens) = .ok s) : s.IsHeader := by
  unfold statement at hs
  dsimp only [next, bind, Except.bind] at hs
  split at hs
  · obtain ⟨count, -, rfl⟩ := map_eq_ok_iff.mp hs
    trivial
  · obtain ⟨rate, -, rfl⟩ := map_eq_ok_iff.mp hs
    trivial
  · obtain ⟨size, -, rfl⟩ := map_eq_ok_iff.mp hs
    trivial
  · cases h
  · cases h
  · cases h
  · cases hs

end Statements

namespace Draft

/-- A header leaves the elements as they are. -/
theorem declared_of_add {draft draft' : Draft α} {n : Nat} {s : Statement α} (hs : s.IsHeader)
    (h : draft.add n s = .ok draft') : draft'.declared = draft.declared := by
  cases s with
  | frames count => obtain ⟨setting, -, ⟨⟩⟩ := bind_eq_ok_iff.mp h; rfl
  | fps rate => obtain ⟨setting, -, ⟨⟩⟩ := bind_eq_ok_iff.mp h; rfl
  | canvas size => obtain ⟨setting, -, ⟨⟩⟩ := bind_eq_ok_iff.mp h; rfl
  | element | move | line => exact hs.elim

/-- A header and another statement change places if they stand on lines of one number: either way
both are added, or one of them is refused. -/
theorem add_header_comm {draft : Draft α} {n : Nat} {s s' : Statement α} (hs : s.IsHeader) :
    ((draft.add n s).toOption.bind fun draft => (draft.add n s').toOption) =
      (draft.add n s').toOption.bind fun draft => (draft.add n s).toOption := by
  obtain ⟨frames, fps, canvas, elements, moves, lines, ranges⟩ := draft
  -- No other statement sets the same field, except for one of the same header, and of two of these
  -- the second is refused, whichever it is.
  cases s with
  | frames => cases frames <;> cases fps <;> cases canvas <;> cases s' <;> rfl
  | fps => cases frames <;> cases fps <;> cases canvas <;> cases s' <;> rfl
  | canvas => cases frames <;> cases fps <;> cases canvas <;> cases s' <;> rfl
  | element | move | line => exact hs.elim

section Lines

variable [Scalar α] {sourceExists : String → Bool} {keyword : String} {tokens : List String}

/-- Adds a line to a draft, if there is one, whatever the number of the line. -/
def accept (sourceExists : String → Bool) (draft : Option (Draft α)) (tokens : List String) :
    Option (Draft α) :=
  draft.bind fun draft => (draft.addLine sourceExists 0 tokens).toOption

theorem accept_nil (draft : Option (Draft α)) : accept sourceExists draft [] = draft := by
  cases draft <;> rfl

theorem accept_cons (draft : Draft α) :
    accept sourceExists (some draft) (keyword :: tokens) =
      (statement ⟨0, draft.declared, sourceExists⟩ (keyword :: tokens)).toOption.bind
        fun s => (draft.add 0 s).toOption := by
  change (statement ⟨0, draft.declared, sourceExists⟩ (keyword :: tokens) >>=
    draft.add 0).toOption = _
  cases (statement ⟨0, draft.declared, sourceExists⟩ (keyword :: tokens) :
    Except Problem (Statement α)) <;> rfl

/-- What a header says is the same in front of a line and behind it. -/
theorem accept_of_not_isBody (scope : Scope) (h : isBody (keyword :: tokens) = false)
    (draft : Option (Draft α)) :
    accept scope.sourceExists draft (keyword :: tokens) = draft.bind fun draft =>
      (statement scope (keyword :: tokens)).toOption.bind fun s => (draft.add 0 s).toOption := by
  cases draft with
  | none => rfl
  | some draft =>
    rw [accept_cons, statement_eq_of_not_isBody h]
    rfl

/-- A line reads what is declared, and a header in front of it declares nothing. -/
theorem accept_behind_header {draft : Draft α} {s : Statement α} (hs : s.IsHeader) :
    accept sourceExists (draft.add 0 s).toOption (keyword :: tokens) =
      (statement ⟨0, draft.declared, sourceExists⟩ (keyword :: tokens)).toOption.bind
        fun s' => (draft.add 0 s).toOption.bind fun draft => (draft.add 0 s').toOption := by
  cases hadd : draft.add 0 s with
  | error problem =>
    cases (statement ⟨0, draft.declared, sourceExists⟩ (keyword :: tokens) :
      Except Problem (Statement α)) <;> rfl
  | ok draft' =>
    rw [← declared_of_add hs hadd]
    exact accept_cons draft'

/-- A header, or a line that adds nothing, changes places with any other line. -/
theorem accept_comm {line : List String} (h : isBody line = false) (line' : List String)
    (draft : Option (Draft α)) :
    accept sourceExists (accept sourceExists draft line) line' =
      accept sourceExists (accept sourceExists draft line') line := by
  -- What the header says is fixed first, since it is the same in both places.
  match draft, line, line' with
  | none, _, _ => rfl
  | some draft, [], line' => rw [accept_nil, accept_nil]
  | some draft, line, [] => rw [accept_nil, accept_nil]
  | some draft, keyword :: tokens, keyword' :: tokens' =>
    have hheader (draft' : Option (Draft α)) :=
      accept_of_not_isBody ⟨0, draft.declared, sourceExists⟩ h draft'
    rw [hheader, hheader]
    cases hs : (statement ⟨0, draft.declared, sourceExists⟩ (keyword :: tokens) :
        Except Problem (Statement α)) with
    | error problem => cases accept sourceExists (some draft) (keyword' :: tokens') <;> rfl
    | ok s =>
      have hs := isHeader_of_not_isBody h hs
      refine (accept_behind_header hs).trans ?_
      rw [accept_cons]
      cases (statement ⟨0, draft.declared, sourceExists⟩ (keyword' :: tokens') :
          Except Problem (Statement α)) with
      | error problem => rfl
      | ok s' => exact add_header_comm hs

theorem foldl_accept_none (lines : List (List String)) :
    lines.foldl (accept sourceExists) (none : Option (Draft α)) = none := by
  induction lines with
  | nil => rfl
  | cons tokens lines ih => exact ih

/-- The lines of a script, added as if their numbers were zero. -/
theorem addLines_eq_foldl_accept (draft : Draft α) (n : Nat) (lines : List (List String)) :
    (draft.addLines sourceExists n lines).toOption.map (Draft.relocate fun _ => 0) =
      lines.foldl (accept sourceExists) (some (draft.relocate fun _ => 0)) := by
  induction lines generalizing draft n with
  | nil => rfl
  | cons tokens lines ih =>
    have hline := @addLine_relocate α (fun _ => 0) _ sourceExists draft n tokens
    rw [addLines, List.foldl_cons, accept, Option.bind_some, hline]
    cases draft.addLine sourceExists n tokens with
    | error problem => exact (foldl_accept_none lines).symm
    | ok draft => exact ih draft (n + 1)

/-- Lines that change places as long as the lines that show something keep their sequence make the
same draft. -/
theorem addLines_of_perm {lines lines' : List (List String)} (hperm : lines'.Perm lines)
    (hkept : lines'.filter isBody = lines.filter isBody) {draft : Draft α}
    (h : Draft.addLines sourceExists ({} : Draft α) 1 lines = .ok draft) :
    ∃ draft', Draft.addLines sourceExists ({} : Draft α) 1 lines' = .ok draft' ∧
      draft'.relocate (fun _ => 0) = draft.relocate fun _ => 0 := by
  -- The numbers of the lines are forgotten, so that the lines can be permuted.
  have hsame : (Draft.addLines sourceExists ({} : Draft α) 1 lines').toOption.map
      (Draft.relocate fun _ => 0) = some (draft.relocate fun _ => 0) := by
    rw [addLines_eq_foldl_accept, foldl_eq_of_perm (fun _ h => accept_comm h) hperm hkept,
      ← addLines_eq_foldl_accept, h]
    rfl
  cases hlines : Draft.addLines sourceExists ({} : Draft α) 1 lines' with
  | error e =>
    rw [hlines] at hsame
    cases hsame
  | ok draft' =>
    rw [hlines] at hsame
    exact ⟨draft', rfl, Option.some.inj hsame⟩

end Lines

end Draft

section Compiling

variable [Scalar α] {options : Options} {text text' : String} {lines lines' : List (List Char)}

/-- A script that compiles still does with its headers elsewhere, and gives the same timeline, apart
from the lines that its records name. -/
theorem compile_headers_anywhere (hlines : SplitLines text.toList lines)
    (hlines' : SplitLines text'.toList lines') (hperm : lines'.Perm lines)
    (hkept : lines'.filter (fun line => isBody (lineTokens line)) =
      lines.filter fun line => isBody (lineTokens line))
    {t : Timeline α} (ht : compile options text = .ok t) :
    ∃ t' : Timeline α, compile options text' = .ok t' ∧ t'.unnumbered = t.unnumbered := by
  have hkeptTokens :
      (lines'.map lineTokens).filter isBody = (lines.map lineTokens).filter isBody := by
    rw [List.filter_map, List.filter_map]
    exact congrArg _ hkept
  obtain ⟨draft, hdraft, ht⟩ := bind_eq_ok_iff.mp ht
  rw [hlines.scriptLines_eq] at hdraft
  obtain ⟨draft', hdraft', hsame⟩ := Draft.addLines_of_perm (hperm.map _) hkeptTokens hdraft
  have hrelocated : relocateOutcome (fun _ => 0) (Timeline.relocate fun _ => 0)
      (draft'.timeline options.frameRate) = .ok t.unnumbered := by
    rw [← Draft.timeline_relocate, hsame, Draft.timeline_relocate, ht]
    rfl
  obtain ⟨t', ht', hunnumbered⟩ := relocateOutcome_eq_ok_iff.mp hrelocated
  rw [← hlines'.scriptLines_eq] at hdraft'
  exact ⟨t', bind_eq_ok_iff.mpr ⟨draft', hdraft', ht'⟩, hunnumbered⟩

/-- A script with its headers behind everything else, where the number of frames that the ranges are
checked against comes last. -/
theorem compile_headers_at_end :
    ∃ t t' : Timeline Float,
      compile {} "frames 2\nfps 12\nelement a b visible 0..2\nmove a 0..2 rotate 5" = .ok t ∧
      compile {} "element a b visible 0..2\nmove a 0..2 rotate 5\nfps 12\nframes 2" = .ok t' ∧
      t'.unnumbered = t.unnumbered := by
  have hfront : SplitLines "frames 2\nfps 12\nelement a b visible 0..2\nmove a 0..2 rotate 5".toList
      (["frames 2", "fps 12", "element a b visible 0..2", "move a 0..2 rotate 5"].map
        String.toList) :=
    splitLines_of_piecesBy (by decide +kernel) (by decide +kernel)
  have hend : SplitLines "element a b visible 0..2\nmove a 0..2 rotate 5\nfps 12\nframes 2".toList
      (["element a b visible 0..2", "move a 0..2 rotate 5", "fps 12", "frames 2"].map
        String.toList) :=
    splitLines_of_piecesBy (by decide +kernel) (by decide +kernel)
  have hok : (compile {} "frames 2\nfps 12\nelement a b visible 0..2\nmove a 0..2 rotate 5" :
      Except Error (Timeline Float)).toOption.any (fun _ => true) = true := by
    decide +kernel
  obtain ⟨t, ht, -⟩ := exists_eq_ok_of_any hok
  obtain ⟨t', ht', hsame⟩ :=
    compile_headers_anywhere hfront hend (by decide +kernel) (by decide +kernel) ht
  exact ⟨t, t', ht, ht', hsame⟩

end Compiling

end Script

end Flipbook
