import Mathlib.Algebra.Order.Field.Rat
import Mathlib.Tactic.Linarith
import Flipbook.Proofs.Device.Vectors

/-!
# The length of tape records

The commands of a drawing are cut into pieces of the length that a record may have. Behind the first
record each piece gets one command more, so a record is too long if its piece was full. This happens
as soon as the commands fill two records, and there is never more than that one command too much.

## Main definitions

* `commandCount`: the number of commands for a stroke.

## Main results

* `forall_length_lt_chunks_iff`: no piece of a list is full just if the list is not as long as one;
* `forall_length_le_sections_iff`: the drawings whose records are not too long;
* `payload_lengths`: the same of the records that are read from a tape.
-/

namespace Flipbook.Device

/-! ## Pieces and sections -/

/-- A piece that is not full is the only one. -/
theorem forall_length_lt_chunks_iff {β : Type} {size : Nat} (hsize : 0 < size) (xs : List β) :
    (∀ piece ∈ chunks size xs, piece.length < size) ↔ xs.length < size := by
  constructor
  · intro h
    -- A list that is long enough has a full piece in front.
    by_contra hfull
    have hne : xs ≠ [] := List.ne_nil_of_length_pos (by omega)
    have hfirst := h (xs.take size) (by
      rw [chunks_of_ne_nil hsize hne]
      exact List.mem_cons_self)
    rw [List.length_take] at hfirst
    omega
  · intro hshort piece hpiece
    have hne : xs ≠ [] := by
      rintro rfl
      rw [chunks_nil] at hpiece
      cases hpiece
    rw [chunks_eq_singleton hne (Nat.le_of_lt hshort), List.mem_singleton] at hpiece
    rwa [hpiece]

/-- Each piece behind other moves becomes a section with one move more. -/
theorem forall_length_le_sectionsBehind_iff {previous : List PenMove}
    {pieces : List (List PenMove)} (hprevious : previous ≠ [])
    (hpieces : ∀ piece ∈ pieces, piece ≠ []) (n : Nat) :
    (∀ piece ∈ sectionsBehind previous pieces, piece.length ≤ n) ↔
      ∀ piece ∈ pieces, piece.length < n := by
  induction pieces generalizing previous with
  | nil => simp [sectionsBehind]
  | cons piece pieces ih =>
    obtain ⟨hpiece, hrest⟩ := List.forall_mem_cons.mp hpieces
    -- There are moves before the piece, so there is one that the section starts from.
    have hresume :
        (previous.getLast?.map fun move => PenMove.goTo move.point).toList.length = 1 := by
      rw [List.getLast?_eq_some_getLast hprevious]
      rfl
    rw [sectionsBehind, List.forall_mem_cons, List.forall_mem_cons, ih hpiece hrest,
      List.length_append, hresume, Nat.add_comm, Nat.add_one_le_iff]

/-- No section is longer than a record, unless the moves fill two records. -/
theorem forall_length_le_sections_iff (moves : List PenMove) :
    (∀ piece ∈ sections moves, piece.length ≤ movesPerRecord) ↔
      moves.length < 2 * movesPerRecord := by
  have hsize : 0 < movesPerRecord := by decide
  by_cases hne : moves = []
  · rw [hne, sections, chunks_nil]
    simp [hsize]
  · have hfirst : moves.take movesPerRecord ≠ [] := by
      simp [List.take_eq_nil_iff, Nat.ne_of_gt hsize, hne]
    have hlength : (moves.take movesPerRecord).length ≤ movesPerRecord := List.length_take_le _ _
    rw [sections, chunks_of_ne_nil hsize hne]
    dsimp only
    -- What counts are the pieces behind the first one, which have to leave room for a move.
    rw [List.forall_mem_cons,
      forall_length_le_sectionsBehind_iff hfirst fun _ => ne_nil_of_mem_chunks,
      forall_length_lt_chunks_iff hsize, List.length_drop]
    omega

/-! ## Records -/

section Records

variable {α : Type} [Scalar α] {strokes : List (Stroke α)} {commands : List UInt8}

/-- The number of commands for a stroke: one for each of its points, but two for a dot. -/
def commandCount (stroke : Stroke α) : Nat :=
  if stroke.length = 1 then 2 else stroke.length

theorem length_strokeMoves (points : List ScreenPoint) :
    (strokeMoves points).length = if points.length = 1 then 2 else points.length := by
  match points with
  | [] => rfl
  | [_] => rfl
  | p :: q :: more => simp [strokeMoves]

/-- The commands of a drawing are those of moves on the screen, as many as its strokes need. -/
theorem exists_moves_of_r12 (h : r12 strokes = .ok commands) :
    ∃ moves : List PenMove, commands = moves.flatMap r12Move ∧
      (∀ move ∈ moves, move.point.OnScreen) ∧ moves.length = (strokes.map commandCount).sum := by
  obtain ⟨screen, hscreen, hcommands⟩ := bind_eq_ok_iff.mp h
  obtain ⟨hrounds, honScreen⟩ := rounds_of_screenStrokes hscreen
  refine ⟨screen.flatMap strokeMoves, (Except.ok.inj hcommands).symm, ?_, ?_⟩
  · intro move hmove
    obtain ⟨points, hpoints, hmove⟩ := List.mem_flatMap.mp hmove
    exact honScreen points hpoints _ (point_mem_of_mem_strokeMoves hmove)
  · rw [List.length_flatMap]
    congr 1
    -- Rounding keeps the number of points, stroke by stroke.
    clear h hscreen hcommands honScreen
    induction hrounds with
    | nil => rfl
    | cons hstroke _ ih =>
      rw [List.map_cons, List.map_cons, ih, length_strokeMoves, commandCount, hstroke.length_eq]

/-- The records of moves hold the commands of their sections, three bytes for each move. -/
theorem forall_length_le_recordContents_iff {moves : List PenMove}
    (h : ∀ move ∈ moves, move.point.OnScreen) (n : Nat) :
    (∀ content ∈ recordContents (moves.flatMap r12Move), content.length ≤ n) ↔
      ∀ piece ∈ sections moves, 3 * piece.length ≤ n := by
  have hlength : ∀ piece : List PenMove, (piece.flatMap r12Move).length = 3 * piece.length :=
    fun piece => length_flatMap_const fun move _ => length_r12Move move
  rw [recordContents_flatMap h, List.forall_mem_map]
  simp only [hlength]

theorem readTape_of_r12 (h : r12 strokes = .ok commands) :
    readTape (tapeRecords commands) = some (recordContents commands, []) := by
  obtain ⟨moves, rfl, honScreen, -⟩ := exists_moves_of_r12 h
  exact readTape_append fun content => readable_of_mem_recordContents honScreen

/-- A record is too long by one command at most. -/
theorem length_recordContents_le (h : r12 strokes = .ok commands) :
    ∀ content ∈ recordContents commands, content.length ≤ recordSize + 3 := by
  obtain ⟨moves, rfl, honScreen, -⟩ := exists_moves_of_r12 h
  have hsize : recordSize = 3 * movesPerRecord := rfl
  rw [forall_length_le_recordContents_iff honScreen]
  intro piece hpiece
  have hlength := length_le_of_mem_sections hpiece
  omega

/-- No record is too long just if the drawing takes less commands than fill two records. -/
theorem length_recordContents_le_iff (h : r12 strokes = .ok commands) :
    (∀ content ∈ recordContents commands, content.length ≤ recordSize) ↔
      (strokes.map commandCount).sum < 2 * movesPerRecord := by
  obtain ⟨moves, rfl, honScreen, hcount⟩ := exists_moves_of_r12 h
  have hsize : recordSize = 3 * movesPerRecord := rfl
  rw [forall_length_le_recordContents_iff honScreen, hsize, ← hcount,
    ← forall_length_le_sections_iff]
  simp only [Nat.mul_le_mul_left_iff, Nat.zero_lt_succ]

/-- The tape of a drawing is read back as records that are too long by one command at most. None of
them is too long just if the commands do not fill two records. -/
theorem payload_lengths (h : r12 strokes = .ok commands) :
    ∃ payloads, readTape (tapeRecords commands) = some (payloads, []) ∧
      (∀ payload ∈ payloads, payload.length ≤ recordSize + 3) ∧
      ((∀ payload ∈ payloads, payload.length ≤ recordSize) ↔
        (strokes.map commandCount).sum < 2 * movesPerRecord) :=
  ⟨recordContents commands, readTape_of_r12 h, length_recordContents_le h,
    length_recordContents_le_iff h⟩

end Records

/-! ## Drawings at the limit -/

/-- A stroke of some points spread over the screen. -/
def gridDrawing (n : Nat) : List (Stroke Rat) :=
  [(List.range n).map fun i => ⟨(i * 7 % 1024 : Nat), (i * 3 % 780 : Nat)⟩]

theorem round_natCast (n : Nat) : Scalar.round (n : Rat) = n := by
  show ((n : Rat) + 1 / 2).floor = n
  apply le_antisymm
  · rw [← Int.lt_add_one_iff, Rat.floor_lt_iff]
    push_cast
    linarith
  · rw [Rat.le_floor_iff]
    push_cast
    linarith

theorem not_offScreen_natCast {x y : Nat} (hx : x < screenSize) (hy : y < screenSize) :
    ¬ OffScreen (⟨x, y⟩ : Point Rat) := by
  have hsize : screenSize = 1024 := rfl
  rw [OffScreen, round_natCast, round_natCast]
  rintro (hfinite | hcolumn | hrow)
  · cases hfinite
  · omega
  · omega

theorem exists_r12_gridDrawing (n : Nat) : ∃ commands, r12 (gridDrawing n) = .ok commands := by
  cases hscreen : screenStrokes (gridDrawing n) with
  | error e =>
    obtain ⟨stroke, hstroke, p, hp, hoff⟩ := screenStrokes_eq_error_iff.mp ⟨e, hscreen⟩
    obtain rfl := List.mem_singleton.mp hstroke
    obtain ⟨i, -, rfl⟩ := List.mem_map.mp hp
    refine absurd hoff (not_offScreen_natCast (Nat.mod_lt _ (by decide)) ?_)
    exact (Nat.mod_lt _ (by decide : 0 < 780)).trans (by decide)
  | ok screen =>
    rw [r12, hscreen]
    exact ⟨_, rfl⟩

theorem sum_commandCount_gridDrawing {n : Nat} (h : n ≠ 1) :
    ((gridDrawing n).map commandCount).sum = n := by
  simp [gridDrawing, commandCount, h]

/-- The greatest drawing of one stroke that has no record which is too long. -/
theorem payload_lengths_gridDrawing : ∃ commands, r12 (gridDrawing 5449) = .ok commands ∧
    ∃ payloads, readTape (tapeRecords commands) = some (payloads, []) ∧
      (∀ payload ∈ payloads, payload.length ≤ recordSize + 3) ∧
      ∀ payload ∈ payloads, payload.length ≤ recordSize := by
  obtain ⟨commands, h⟩ := exists_r12_gridDrawing 5449
  obtain ⟨payloads, hread, hbound, hfit⟩ := payload_lengths h
  refine ⟨commands, h, payloads, hread, hbound, hfit.mpr ?_⟩
  rw [sum_commandCount_gridDrawing (by decide)]
  decide

/-- One point more makes the second record too long. -/
theorem exists_long_payload : ∃ commands, r12 (gridDrawing 5450) = .ok commands ∧
    ∃ payloads, readTape (tapeRecords commands) = some (payloads, []) ∧
      ∃ payload ∈ payloads, recordSize < payload.length := by
  obtain ⟨commands, h⟩ := exists_r12_gridDrawing 5450
  refine ⟨commands, h, recordContents commands, readTape_of_r12 h, ?_⟩
  by_contra hshort
  have hfit := (length_recordContents_le_iff h).mp (by simpa using hshort)
  rw [sum_commandCount_gridDrawing (by decide)] at hfit
  exact absurd hfit (by decide)

end Flipbook.Device
