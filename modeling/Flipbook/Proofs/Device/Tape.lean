import Flipbook.Device.Tape
import Flipbook.Proofs.Archive.Chunks
import Flipbook.Proofs.Traverse

/-!
# Tape records draw what was drawn

A tape is read record by record, and the commands of each record are executed on their own: the pen
is nowhere until a command puts it somewhere. Since every record but the first begins by putting the
pen where it was, the records together draw the segments of the strokes.

## Main definitions

* `readTape`: the records of a tape, up to the record that ends it.
* `execute`: the segments that the commands of a record draw.
* `strokeSegments`: the segments of a stroke.

## Main results

* `readTape_append`: reading finds the records that were written;
* `draw_sections`: sections of moves draw what the moves draw at once;
* `execute_tapeRecords`: the tape of a drawing draws its segments.
-/

namespace Flipbook.Device

/-- A segment from one point of the screen to another. -/
abbrev Segment : Type := ScreenPoint × ScreenPoint

section Reading

/-- Splits a record off a tape: its contents, the byte that closes it, and the tape behind it. -/
def readRecord : List UInt8 → Option (List UInt8 × UInt8 × List UInt8)
  | high :: low :: tape =>
    let length := high.toNat % 64 * 256 + low.toNat
    match tape.drop length with
    | closing :: rest =>
      if high.toNat / 64 = 1 then some (tape.take length, closing, rest) else none
    | [] => none
  | _ => none

theorem length_readRecord {tape rest content : List UInt8} {closing : UInt8}
    (h : readRecord tape = some (content, closing, rest)) : rest.length < tape.length := by
  unfold readRecord at h
  split at h
  next high low tape =>
    dsimp only at h
    split at h
    next closing' rest' hdrop =>
      have hlength := congrArg List.length hdrop
      rw [List.length_drop, List.length_cons] at hlength
      split at h
      · cases h
        rw [List.length_cons, List.length_cons]
        omega
      · cases h
    next => cases h
  next => cases h

/-- The contents of the record that ends a tape, the letter `X`. -/
def endMark : List UInt8 := [0x58]

set_option linter.unusedVariables false in
/-- The contents of the records of a tape up to the one that ends it, and the tape behind that. The
others are closed by a zero. -/
def readTape (tape : List UInt8) : Option (List (List UInt8) × List UInt8) :=
  match h : readRecord tape with
  | none => none
  | some (content, closing, rest) =>
    if content = endMark then some ([], rest)
    else if closing = 0 then (readTape rest).map fun (records, tape) => (content :: records, tape)
    else none
termination_by tape.length
decreasing_by exact length_readRecord h

theorem readRecord_append {content : List UInt8} (h : content.length < 64 * 256)
    (rest : List UInt8) : readRecord (tapeRecord content ++ rest) = some (content, 0, rest) := by
  -- The six bits of the length that stand in the first byte lie below the flag of a record.
  have hhigh : (0x40 + content.length / 256).toUInt8.toNat = 64 + content.length / 256 := by
    rw [Nat.toUInt8_eq, UInt8.toNat_ofNat']
    omega
  have hlow : (content.length % 256).toUInt8.toNat = content.length % 256 := by
    rw [Nat.toUInt8_eq, UInt8.toNat_ofNat']
    omega
  have hlength :
      (64 + content.length / 256) % 64 * 256 + content.length % 256 = content.length := by
    omega
  simp only [tapeRecord, List.cons_append, List.nil_append, List.append_assoc, readRecord, hhigh,
    hlow, hlength, List.drop_left, List.take_left]
  rw [if_pos (by omega)]

theorem readTape_of_end {tape rest : List UInt8} {closing : UInt8}
    (h : readRecord tape = some (endMark, closing, rest)) : readTape tape = some ([], rest) := by
  rw [readTape]
  split
  next hnone => cases hnone.symm.trans h
  next content closing rest hsome =>
    cases hsome.symm.trans h
    rw [if_pos rfl]

theorem readTape_of_record {tape rest content : List UInt8}
    (h : readRecord tape = some (content, 0, rest)) (hmark : content ≠ endMark) :
    readTape tape = (readTape rest).map fun (records, tape) => (content :: records, tape) := by
  rw [readTape]
  split
  next hnone => cases hnone.symm.trans h
  next content closing rest hsome =>
    cases hsome.symm.trans h
    rw [if_neg hmark, if_pos rfl]

theorem readRecord_endOfTape : readRecord endOfTape = some (endMark, 0x68, []) := by decide

/-- Reading finds the records that were written, none of which is taken for the end. -/
theorem readTape_append {contents : List (List UInt8)}
    (h : ∀ content ∈ contents, content.length < 64 * 256 ∧ content ≠ endMark) :
    readTape (contents.flatMap tapeRecord ++ endOfTape) = some (contents, []) := by
  induction contents with
  | nil => exact readTape_of_end readRecord_endOfTape
  | cons content contents ih =>
    obtain ⟨⟨hlength, hmark⟩, hrest⟩ := List.forall_mem_cons.mp h
    rw [List.flatMap_cons, List.append_assoc,
      readTape_of_record (readRecord_append hlength _) hmark, ih hrest]
    rfl

end Reading

section Executing

/-- Executes commands, from where the pen is, if it is anywhere. A command that draws needs a place
to draw from. -/
def execute : Option ScreenPoint → List UInt8 → Option (List Segment)
  | _, [] => some []
  | pen, high :: low₁ :: low₂ :: commands =>
    let column := high.toNat / 8 % 8 * 128 + low₁.toNat % 128
    let row := high.toNat % 8 * 128 + low₂.toNat % 128
    let rest := execute (some ⟨column, row⟩) commands
    if high.toNat / 64 % 2 = 1 then rest
    else pen.bind fun start => rest.map fun segments => (start, ⟨column, row⟩) :: segments
  | _, _ => none

/-- The segments of a stroke: one from each point to the next, or, if there is only one point, one
from there to itself. -/
def strokeSegments : List ScreenPoint → List Segment
  | [p] => [(p, p)]
  | stroke => stroke.zip stroke.tail

/-- Where a move takes the pen. -/
def PenMove.point : PenMove → ScreenPoint
  | .goTo p | .drawTo p => p

/-- The segments that moves draw, from where the pen is. -/
def draw : Option ScreenPoint → List PenMove → Option (List Segment)
  | _, [] => some []
  | _, .goTo p :: moves => draw (some p) moves
  | pen, .drawTo p :: moves =>
    pen.bind fun start => (draw (some p) moves).map fun segments => (start, p) :: segments

/-- A point that the screen has. -/
def ScreenPoint.OnScreen (p : ScreenPoint) : Prop :=
  p.x < screenSize ∧ p.y < screenSize

/-- The commands of a flag and a point show the flag and the point. -/
theorem execute_r12Command {flag : Nat} {p : ScreenPoint} (hflag : flag = goToFlag ∨ flag = 0)
    (hp : p.OnScreen) (pen : Option ScreenPoint) (commands : List UInt8) :
    execute pen (r12Command flag p ++ commands) =
      if flag = goToFlag then execute (some p) commands
      else pen.bind fun start =>
        (execute (some p) commands).map fun segments => (start, p) :: segments := by
  obtain ⟨x, y⟩ := p
  obtain ⟨hx, hy⟩ : x < 1024 ∧ y < 1024 := hp
  have hflag' : flag = 64 ∨ flag = 0 := hflag
  -- Both high parts are below 8, so that the flag and they share a byte without touching.
  have hhigh : (flag + x / 128 * 8 + y / 128).toUInt8.toNat = flag + x / 128 * 8 + y / 128 := by
    rw [Nat.toUInt8_eq, UInt8.toNat_ofNat']
    omega
  have hcolumn : (x % 128).toUInt8.toNat = x % 128 := by
    rw [Nat.toUInt8_eq, UInt8.toNat_ofNat']
    omega
  have hrow : (y % 128).toUInt8.toNat = y % 128 := by
    rw [Nat.toUInt8_eq, UInt8.toNat_ofNat']
    omega
  have hx' : (flag + x / 128 * 8 + y / 128) / 8 % 8 * 128 + x % 128 % 128 = x := by omega
  have hy' : (flag + x / 128 * 8 + y / 128) % 8 * 128 + y % 128 % 128 = y := by omega
  have hbit : (flag + x / 128 * 8 + y / 128) / 64 % 2 = 1 ↔ flag = goToFlag := by
    rw [goToFlag]
    omega
  simp only [r12Command, List.cons_append, List.nil_append, execute, hhigh, hcolumn, hrow, hx', hy',
    hbit]

/-- The commands of moves draw what the moves draw. -/
theorem execute_flatMap {moves : List PenMove} (h : ∀ move ∈ moves, move.point.OnScreen)
    (pen : Option ScreenPoint) : execute pen (moves.flatMap r12Move) = draw pen moves := by
  induction moves generalizing pen with
  | nil => rfl
  | cons move moves ih =>
    obtain ⟨hmove, hrest⟩ := List.forall_mem_cons.mp h
    rw [List.flatMap_cons]
    cases move with
    | goTo p =>
      rw [r12Move, execute_r12Command (p := p) (.inl rfl) hmove, if_pos rfl, ih hrest, draw]
    | drawTo p =>
      rw [r12Move, execute_r12Command (p := p) (.inr rfl) hmove, if_neg (by decide), ih hrest, draw]

end Executing

section Sections

/-- Where the pen is after moves. -/
def penAfter (pen : Option ScreenPoint) (moves : List PenMove) : Option ScreenPoint :=
  (moves.getLast?.map PenMove.point).or pen

theorem penAfter_cons (pen : Option ScreenPoint) (move : PenMove) (moves : List PenMove) :
    penAfter pen (move :: moves) = penAfter (some move.point) moves := by
  rw [penAfter, penAfter, List.getLast?_cons]
  cases moves.getLast? <;> rfl

/-- Moves can be drawn in two parts, the second from where the first one left the pen. -/
theorem draw_append (first second : List PenMove) (pen : Option ScreenPoint) :
    draw pen (first ++ second) = (draw pen first).bind fun segments =>
      (draw (penAfter pen first) second).map fun more => segments ++ more := by
  -- The first move takes the pen along, so the others are drawn from any place.
  induction first generalizing pen with
  | nil => simp [draw, penAfter]
  | cons move first ih =>
    rw [List.cons_append, penAfter_cons]
    cases move with
    | goTo p =>
      rw [draw, draw, ih]
      rfl
    | drawTo p =>
      rw [draw, draw, ih]
      cases pen with
      | none => rfl
      | some start =>
        cases draw (some p) first with
        | none => rfl
        | some segments =>
          cases h : draw (penAfter (some p) first) second <;> simp [PenMove.point, h]

/-- Pieces of moves, each of which but the first starts by going where the one before ended. -/
def sectionsBehind : List PenMove → List (List PenMove) → List (List PenMove)
  | _, [] => []
  | previous, piece :: rest =>
    ((previous.getLast?.map fun move => .goTo move.point).toList ++ piece) ::
      sectionsBehind piece rest

/-- The number of moves whose commands fill a record. -/
def movesPerRecord : Nat := 2725

/-- Pieces of moves that can be drawn on their own. -/
def sections (moves : List PenMove) : List (List PenMove) :=
  match chunks movesPerRecord moves with
  | [] => []
  | piece :: rest => piece :: sectionsBehind piece rest

/-- Sections behind some moves draw what their pieces draw from where these moves end. -/
theorem draw_sectionsBehind {previous : List PenMove} {pieces : List (List PenMove)}
    (hprevious : previous ≠ []) (hpieces : ∀ piece ∈ pieces, piece ≠ [])
    (pen : Option ScreenPoint) :
    ((sectionsBehind previous pieces).mapM (draw none)).map List.flatten =
      draw (penAfter pen previous) pieces.flatten := by
  induction pieces generalizing previous pen with
  | nil => rfl
  | cons piece pieces ih =>
    obtain ⟨hpiece, hrest⟩ := List.forall_mem_cons.mp hpieces
    obtain ⟨last, hlast⟩ :=
      Option.ne_none_iff_exists'.mp (mt List.getLast?_eq_none_iff.mp hprevious)
    have hafter : penAfter pen previous = some last.point := by
      rw [penAfter, hlast]
      rfl
    -- Going to where the pen was makes up for starting from nowhere.
    have hstart : draw none ((previous.getLast?.map fun move => PenMove.goTo move.point).toList ++
        piece) = draw (penAfter pen previous) piece := by
      rw [hafter, hlast]
      rfl
    rw [sectionsBehind, map_flatten_mapM_cons, hstart, List.flatten_cons, draw_append,
      ih hpiece hrest (penAfter pen previous)]

/-- Sections of moves, each on its own, draw what the moves draw at once. -/
theorem draw_sections (moves : List PenMove) :
    ((sections moves).mapM (draw none)).map List.flatten = draw none moves := by
  have hflatten : (chunks movesPerRecord moves).flatten = moves := flatten_chunks (by decide) moves
  have hpieces : ∀ piece ∈ chunks movesPerRecord moves, piece ≠ [] :=
    fun _ => ne_nil_of_mem_chunks
  rw [sections]
  -- Where the pieces are cut does not matter, only that none is empty.
  generalize chunks movesPerRecord moves = pieces at hflatten hpieces ⊢
  subst hflatten
  cases pieces with
  | nil => rfl
  | cons piece pieces =>
    obtain ⟨hpiece, hrest⟩ := List.forall_mem_cons.mp hpieces
    rw [map_flatten_mapM_cons, draw_sectionsBehind hpiece hrest none, List.flatten_cons,
      draw_append]

theorem resumeAt_append (commands : List UInt8) (high x y : UInt8) :
    resumeAt (commands ++ [high, x, y]) = [high ||| goToFlag.toUInt8, x, y] := by
  simp [resumeAt]

/-- Setting the flag of a command makes it that of a move that does not draw. -/
theorem resumeAt_r12Command {flag : Nat} {p : ScreenPoint} (hflag : flag = goToFlag ∨ flag = 0)
    (hp : p.OnScreen) (commands : List UInt8) :
    resumeAt (commands ++ r12Command flag p) = r12Command goToFlag p := by
  -- Beside the flag a first byte has six bits, so 64 values are to be tried.
  have hset : ∀ n < 64, (goToFlag + n).toUInt8 ||| goToFlag.toUInt8 = (goToFlag + n).toUInt8 ∧
      (0 + n).toUInt8 ||| goToFlag.toUInt8 = (goToFlag + n).toUInt8 := by decide
  obtain ⟨hx, hy⟩ : p.x < 1024 ∧ p.y < 1024 := hp
  obtain ⟨hgoTo, hdrawTo⟩ := hset (p.x / 128 * 8 + p.y / 128) (by omega)
  rw [r12Command, resumeAt_append, r12Command, Nat.add_assoc, Nat.add_assoc]
  rcases hflag with rfl | rfl
  · rw [hgoTo]
  · rw [hdrawTo]

/-- The last command of a piece puts the pen where the piece leaves it. -/
theorem resumeAt_flatMap {piece : List PenMove} (hne : piece ≠ [])
    (h : ∀ move ∈ piece, move.point.OnScreen) : resumeAt (piece.flatMap r12Move) =
      (piece.getLast?.map fun move => PenMove.goTo move.point).toList.flatMap r12Move := by
  obtain ⟨last, hlast⟩ := Option.ne_none_iff_exists'.mp (mt List.getLast?_eq_none_iff.mp hne)
  obtain ⟨front, rfl⟩ := List.getLast?_eq_some_iff.mp hlast
  have hscreen := h last (List.mem_append_right front List.mem_cons_self)
  rw [hlast, List.flatMap_append, List.flatMap_singleton]
  cases last with
  | goTo p => exact resumeAt_r12Command (p := p) (.inl rfl) hscreen _
  | drawTo p => exact resumeAt_r12Command (p := p) (.inr rfl) hscreen _

theorem resumed_map {previous : List PenMove} {pieces : List (List PenMove)}
    (hprevious : previous ≠ []) (hpieces : ∀ piece ∈ pieces, piece ≠ [])
    (hscreen : ∀ move ∈ previous, move.point.OnScreen)
    (hscreens : ∀ piece ∈ pieces, ∀ move ∈ piece, move.point.OnScreen) :
    resumed (previous.flatMap r12Move) (pieces.map (List.flatMap r12Move)) =
      (sectionsBehind previous pieces).map (List.flatMap r12Move) := by
  induction pieces generalizing previous with
  | nil => rfl
  | cons piece pieces ih =>
    obtain ⟨hpiece, hrest⟩ := List.forall_mem_cons.mp hpieces
    obtain ⟨hon, hons⟩ := List.forall_mem_cons.mp hscreens
    rw [List.map_cons, resumed, resumeAt_flatMap hprevious hscreen, ih hpiece hrest hon hons,
      sectionsBehind, List.map_cons, List.flatMap_append]

theorem length_r12Move (move : PenMove) : (r12Move move).length = 3 := by
  cases move <;> rfl

theorem onScreen_of_mem_chunks {moves : List PenMove}
    (h : ∀ move ∈ moves, move.point.OnScreen) :
    ∀ piece ∈ chunks movesPerRecord moves, ∀ move ∈ piece, move.point.OnScreen := by
  intro piece hpiece move hmove
  apply h
  have hsize : 0 < movesPerRecord := by decide
  rw [← flatten_chunks hsize moves]
  exact List.mem_flatten_of_mem hpiece hmove

/-- The records of a drawing hold the commands of sections of its moves. -/
theorem recordContents_flatMap {moves : List PenMove}
    (h : ∀ move ∈ moves, move.point.OnScreen) :
    recordContents (moves.flatMap r12Move) = (sections moves).map (List.flatMap r12Move) := by
  -- A record is full behind a command, so no command is cut in two.
  have hsize : recordSize = 3 * movesPerRecord := rfl
  have hchunks : chunks recordSize (moves.flatMap r12Move) =
      (chunks movesPerRecord moves).map (List.flatMap r12Move) := by
    rw [hsize]
    exact chunks_flatMap (by decide) (by decide) fun move _ => length_r12Move move
  have hpieces : ∀ piece ∈ chunks movesPerRecord moves, piece ≠ [] :=
    fun _ => ne_nil_of_mem_chunks
  have hscreens := onScreen_of_mem_chunks h
  rw [recordContents, sections, hchunks]
  generalize chunks movesPerRecord moves = pieces at hpieces hscreens ⊢
  cases pieces with
  | nil => rfl
  | cons piece pieces =>
    obtain ⟨hpiece, hrest⟩ := List.forall_mem_cons.mp hpieces
    obtain ⟨hon, hons⟩ := List.forall_mem_cons.mp hscreens
    rw [List.map_cons, List.map_cons]
    exact congrArg (_ :: ·) (resumed_map hpiece hrest hon hons)

theorem length_le_of_mem_sectionsBehind {previous piece : List PenMove}
    {pieces : List (List PenMove)} {n : Nat} (hpieces : ∀ piece ∈ pieces, piece.length ≤ n)
    (h : piece ∈ sectionsBehind previous pieces) : piece.length ≤ n + 1 := by
  induction pieces generalizing previous with
  | nil => cases h
  | cons first pieces ih =>
    obtain ⟨hfirst, hrest⟩ := List.forall_mem_cons.mp hpieces
    rw [sectionsBehind, List.mem_cons] at h
    rcases h with rfl | hlater
    · have hresume :
          (previous.getLast?.map fun move => PenMove.goTo move.point).toList.length ≤ 1 := by
        cases previous.getLast? <;> simp
      rw [List.length_append]
      omega
    · exact ih hrest hlater

/-- A section holds at most one move more than a record takes. -/
theorem length_le_of_mem_sections {moves piece : List PenMove} (h : piece ∈ sections moves) :
    piece.length ≤ movesPerRecord + 1 := by
  have hpieces : ∀ piece ∈ chunks movesPerRecord moves, piece.length ≤ movesPerRecord :=
    fun _ => length_le_of_mem_chunks (by decide)
  rw [sections] at h
  generalize chunks movesPerRecord moves = pieces at h hpieces
  cases pieces with
  | nil => cases h
  | cons first pieces =>
    obtain ⟨hfirst, hrest⟩ := List.forall_mem_cons.mp hpieces
    rcases List.mem_cons.mp h with rfl | hlater
    · exact Nat.le_succ_of_le hfirst
    · exact length_le_of_mem_sectionsBehind hrest hlater

theorem onScreen_of_mem_sectionsBehind {previous piece : List PenMove}
    {pieces : List (List PenMove)} (hprevious : ∀ move ∈ previous, move.point.OnScreen)
    (hpieces : ∀ piece ∈ pieces, ∀ move ∈ piece, move.point.OnScreen)
    (h : piece ∈ sectionsBehind previous pieces) : ∀ move ∈ piece, move.point.OnScreen := by
  induction pieces generalizing previous with
  | nil => cases h
  | cons first pieces ih =>
    obtain ⟨hfirst, hrest⟩ := List.forall_mem_cons.mp hpieces
    rw [sectionsBehind, List.mem_cons] at h
    rcases h with rfl | hlater
    · intro move hmove
      rcases List.mem_append.mp hmove with hresume | hin
      · obtain ⟨last, hlast, rfl⟩ := Option.map_eq_some_iff.mp (Option.mem_toList.mp hresume)
        exact hprevious last (List.mem_of_getLast? hlast)
      · exact hfirst move hin
    · exact ih hfirst hrest hlater

theorem onScreen_of_mem_sections {moves piece : List PenMove}
    (hmoves : ∀ move ∈ moves, move.point.OnScreen) (h : piece ∈ sections moves) :
    ∀ move ∈ piece, move.point.OnScreen := by
  have hpieces := onScreen_of_mem_chunks hmoves
  rw [sections] at h
  generalize chunks movesPerRecord moves = pieces at h hpieces
  cases pieces with
  | nil => cases h
  | cons first pieces =>
    obtain ⟨hfirst, hrest⟩ := List.forall_mem_cons.mp hpieces
    rcases List.mem_cons.mp h with rfl | hlater
    · exact hfirst
    · exact onScreen_of_mem_sectionsBehind hfirst hrest hlater

/-- The records of moves, each executed on its own, draw what the moves draw. -/
theorem execute_recordContents {moves : List PenMove}
    (h : ∀ move ∈ moves, move.point.OnScreen) :
    ((recordContents (moves.flatMap r12Move)).mapM (execute none)).map List.flatten =
      draw none moves := by
  -- A section only goes to points of its moves, so that all its commands can be executed.
  have hsections : (sections moves).mapM (execute none ∘ List.flatMap r12Move) =
      (sections moves).mapM (draw none) :=
    mapM_congr fun piece hpiece => execute_flatMap (onScreen_of_mem_sections h hpiece) none
  rw [recordContents_flatMap h, List.mapM_map, hsections, draw_sections]

/-- No record has more bytes than its length can tell, and none is taken for the end. -/
theorem readable_of_mem_recordContents {moves : List PenMove}
    (h : ∀ move ∈ moves, move.point.OnScreen) {content : List UInt8}
    (hcontent : content ∈ recordContents (moves.flatMap r12Move)) :
    content.length < 64 * 256 ∧ content ≠ endMark := by
  rw [recordContents_flatMap h] at hcontent
  obtain ⟨piece, hpiece, rfl⟩ := List.mem_map.mp hcontent
  have hlength : (piece.flatMap r12Move).length = 3 * piece.length :=
    length_flatMap_const fun move _ => length_r12Move move
  have hle : piece.length ≤ 2726 := length_le_of_mem_sections hpiece
  refine ⟨by omega, fun heq => ?_⟩
  -- The end is marked by one byte, and a command has three.
  have hone := congrArg List.length heq
  rw [hlength, endMark, List.length_singleton] at hone
  omega

end Sections

section Drawing

variable {α : Type} [Scalar α]

/-- A point of the screen is the one that a point rounds to. -/
def Rounds (p : Point α) (q : ScreenPoint) : Prop :=
  (q.x : Int) = Scalar.round p.x ∧ (q.y : Int) = Scalar.round p.y

theorem rounds_of_ofPoint {p : Point α} {q : ScreenPoint} (h : ScreenPoint.ofPoint p = .ok q) :
    Rounds p q ∧ q.OnScreen := by
  unfold ScreenPoint.ofPoint at h
  split at h
  · cases h
  · dsimp only at h
    split at h
    next hrange =>
      obtain ⟨hx, hx', hy, hy'⟩ := hrange
      cases h
      refine ⟨⟨Int.toNat_of_nonneg hx, Int.toNat_of_nonneg hy⟩, ?_, ?_⟩
      · show (Scalar.round p.x).toNat < screenSize
        omega
      · show (Scalar.round p.y).toNat < screenSize
        omega
    next => cases h

theorem draw_drawTo (stroke : List ScreenPoint) (p : ScreenPoint) :
    draw (some p) (stroke.map .drawTo) = some ((p :: stroke).zip stroke) := by
  induction stroke generalizing p with
  | nil => rfl
  | cons q stroke ih =>
    rw [List.map_cons, draw, ih, List.zip_cons_cons]
    rfl

/-- The moves for a stroke draw its segments, wherever the pen is. -/
theorem draw_strokeMoves (pen : Option ScreenPoint) (stroke : List ScreenPoint) :
    draw pen (strokeMoves stroke) = some (strokeSegments stroke) :=
  match stroke with
  | [] => rfl
  | [_] => rfl
  | p :: q :: stroke => draw_drawTo (q :: stroke) p

/-- The moves for strokes draw the segments of all of them. -/
theorem draw_flatMap_strokeMoves (strokes : List (List ScreenPoint)) (pen : Option ScreenPoint) :
    draw pen (strokes.flatMap strokeMoves) = some (strokes.flatMap strokeSegments) := by
  induction strokes generalizing pen with
  | nil => rfl
  | cons stroke strokes ih =>
    rw [List.flatMap_cons, draw_append, draw_strokeMoves, ih]
    rfl

theorem point_mem_of_mem_strokeMoves {stroke : List ScreenPoint} {move : PenMove}
    (h : move ∈ strokeMoves stroke) : move.point ∈ stroke := by
  match stroke with
  | [] => cases h
  | [p] =>
    simp only [strokeMoves, List.mem_cons, List.not_mem_nil, or_false] at h
    rcases h with rfl | rfl <;> exact List.mem_cons_self
  | p :: q :: stroke =>
    rw [strokeMoves, List.mem_cons, List.mem_map] at h
    · rcases h with rfl | ⟨r, hr, rfl⟩
      · exact List.mem_cons_self
      · exact List.mem_cons_of_mem p hr
    · exact List.cons_ne_nil q stroke

/-- The tape of a drawing is read to its end, and its records, each executed on its own, draw the
segments of the strokes. -/
theorem execute_tapeRecords {strokes : List (Stroke α)} {commands : List UInt8}
    (h : r12 strokes = .ok commands) :
    readTape (tapeRecords commands) = some (recordContents commands, []) ∧
      ∃ screen, List.Forall₂ (List.Forall₂ Rounds) strokes screen ∧
        ((recordContents commands).mapM (execute none)).map List.flatten =
          some (screen.flatMap strokeSegments) := by
  cases hscreen : screenStrokes strokes with
  | error e =>
    rw [r12, hscreen] at h
    cases h
  | ok screen =>
    rw [r12, hscreen] at h
    obtain rfl : (screen.flatMap strokeMoves).flatMap r12Move = commands := Except.ok.inj h
    have hrounds : List.Forall₂ (List.Forall₂ Rounds) strokes screen := by
      refine List.Forall₂.imp ?_ (mapM_eq_ok_iff.mp hscreen)
      intro stroke points hstroke
      refine List.Forall₂.imp ?_ (mapM_eq_ok_iff.mp hstroke)
      intro p q hp
      exact (rounds_of_ofPoint hp).1
    -- Every move goes to a point of a stroke, and these were rounded to points of the screen.
    have honScreen : ∀ move ∈ screen.flatMap strokeMoves, move.point.OnScreen := by
      intro move hmove
      obtain ⟨points, hpoints, hmove⟩ := List.mem_flatMap.mp hmove
      obtain ⟨stroke, -, hstroke⟩ := exists_of_mem_mapM hscreen hpoints
      obtain ⟨p, -, hp⟩ := exists_of_mem_mapM hstroke (point_mem_of_mem_strokeMoves hmove)
      exact (rounds_of_ofPoint hp).2
    refine ⟨readTape_append fun content => readable_of_mem_recordContents honScreen, screen,
      hrounds, ?_⟩
    rw [execute_recordContents honScreen, draw_flatMap_strokeMoves]

/-- A dot, and a stroke whose commands do not fit into one record. -/
def longDrawing : List (Stroke Rat) :=
  [[⟨1 / 2, 779⟩], (List.replicate 1400 [⟨0, 3 / 4⟩, ⟨1023, 2⟩]).flatten]

theorem execute_longDrawing : ∃ commands, r12 longDrawing = .ok commands ∧
    recordSize < commands.length ∧
      readTape (tapeRecords commands) = some (recordContents commands, []) ∧
      ∃ screen, List.Forall₂ (List.Forall₂ Rounds) longDrawing screen ∧
        ((recordContents commands).mapM (execute none)).map List.flatten =
          some (screen.flatMap strokeSegments) := by
  have hok : (r12 longDrawing).toOption.any
      (fun commands => recordSize < commands.length) = true := by
    decide +kernel
  cases h : r12 longDrawing with
  | error e =>
    rw [h] at hok
    cases hok
  | ok commands =>
    rw [h] at hok
    exact ⟨commands, rfl, of_decide_eq_true hok, execute_tapeRecords h⟩

end Drawing

end Flipbook.Device
