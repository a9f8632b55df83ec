import Flipbook.Device.Tek4010
import Flipbook.Proofs.Device.Tape

/-!
# The vectors of a terminal can be told apart

The bytes that the terminal gets for a drawing can be read in one way only. A byte of its own starts
each stroke, another one ends the drawing, and neither occurs among the bytes of the points. So a
reader who knows nothing but these two bytes finds the strokes again, point by point, and a drawing
that is refused has a point which the terminal cannot address.

## Main definitions

* `readDrawing`: the strokes that bytes stand for, and the bytes behind the drawing.
* `plottedStrokes`: the points to which the pen goes for each stroke.
* `Point.OffScreen`: a point that no place on the screen belongs to.

## Main results

* `readStrokes_drawing`: reading finds the points that were written;
* `readDrawing_tek4010`: drawings are refused for points off the screen only, and otherwise are read
  back.
-/

namespace Flipbook.Device

section Reading

/-- The point that a group of four bytes shows with the lower five bits of each. -/
def groupPoint (highY lowY highX lowX : UInt8) : ScreenPoint where
  x := highX.toNat % 32 * 32 + lowX.toNat % 32
  y := highY.toNat % 32 * 32 + lowY.toNat % 32

/-- Reads up to the end of a drawing: the points in front of the next stroke, the strokes from there
on, and the bytes behind the drawing. -/
def readStrokes : List UInt8 → Option (List ScreenPoint × List (List ScreenPoint) × List UInt8)
  | [] => none
  | byte :: bytes =>
    if byte = alphaMode then some ([], [], bytes)
    else if byte = graphMode then
      (readStrokes bytes).map fun (points, strokes, rest) => ([], points :: strokes, rest)
    else
      match bytes with
      | lowY :: highX :: lowX :: bytes =>
        (readStrokes bytes).map fun (points, strokes, rest) =>
          (groupPoint byte lowY highX lowX :: points, strokes, rest)
      | _ => none

/-- The strokes of a drawing and the bytes behind it. Every point belongs to a stroke. -/
def readDrawing (bytes : List UInt8) : Option (List (List ScreenPoint) × List UInt8) :=
  match readStrokes bytes with
  | some ([], strokes, rest) => some (strokes, rest)
  | _ => none

/-- A byte that may be part of a point: the bytes below are for control. -/
def IsVectorByte (byte : UInt8) : Prop :=
  0x20 ≤ byte ∧ byte ≤ 0x7F

theorem isVectorByte_toUInt8 {n : Nat} (hlow : 0x20 ≤ n) (hhigh : n ≤ 0x7F) :
    IsVectorByte n.toUInt8 := by
  rw [IsVectorByte, UInt8.le_iff_toNat_le, UInt8.le_iff_toNat_le, Nat.toUInt8_eq,
    UInt8.toNat_ofNat']
  show 32 ≤ n % 256 ∧ n % 256 ≤ 127
  omega

theorem ne_alphaMode_of_isVectorByte {byte : UInt8} (h : IsVectorByte byte) : byte ≠ alphaMode := by
  rintro rfl
  exact absurd h.1 (by decide)

theorem ne_graphMode_of_isVectorByte {byte : UInt8} (h : IsVectorByte byte) : byte ≠ graphMode := by
  rintro rfl
  exact absurd h.1 (by decide)

variable {p : ScreenPoint} {points : List ScreenPoint}

/-- No byte of a point is mistaken for the start of a stroke or the end of a drawing. -/
theorem isVectorByte_of_mem_tek4010Point (hp : p.OnScreen) :
    ∀ byte ∈ tek4010Point p, IsVectorByte byte := by
  obtain ⟨hx, hy⟩ : p.x < 1024 ∧ p.y < 1024 := hp
  simp only [tek4010Point, List.forall_mem_cons]
  refine ⟨?_, ?_, ?_, ?_, List.forall_mem_nil _⟩ <;> apply isVectorByte_toUInt8 <;> omega

/-- The four bytes of a point show the point. -/
theorem readStrokes_tek4010Point (hp : p.OnScreen) (bytes : List UInt8) :
    readStrokes (tek4010Point p ++ bytes) =
      (readStrokes bytes).map fun (points, strokes, rest) => (p :: points, strokes, rest) := by
  have hhead : IsVectorByte (0x20 + p.y / 32).toUInt8 :=
    isVectorByte_of_mem_tek4010Point hp _ List.mem_cons_self
  obtain ⟨hx, hy⟩ : p.x < 1024 ∧ p.y < 1024 := hp
  -- The marks are multiples of 32, so the lower five bits are those of the coordinates.
  have hpoint : groupPoint (0x20 + p.y / 32).toUInt8 (0x60 + p.y % 32).toUInt8
      (0x20 + p.x / 32).toUInt8 (0x40 + p.x % 32).toUInt8 = p := by
    simp only [groupPoint, Nat.toUInt8_eq, UInt8.toNat_ofNat']
    congr 1 <;> omega
  show readStrokes ((0x20 + p.y / 32).toUInt8 :: (0x60 + p.y % 32).toUInt8 ::
    (0x20 + p.x / 32).toUInt8 :: (0x40 + p.x % 32).toUInt8 :: bytes) = _
  rw [readStrokes, if_neg (ne_alphaMode_of_isVectorByte hhead),
    if_neg (ne_graphMode_of_isVectorByte hhead)]
  simp only [hpoint]

theorem readStrokes_points (h : ∀ p ∈ points, p.OnScreen) (bytes : List UInt8) :
    readStrokes (points.flatMap tek4010Point ++ bytes) =
      (readStrokes bytes).map fun (more, strokes, rest) => (points ++ more, strokes, rest) := by
  induction points with
  | nil =>
    rw [List.flatMap_nil, List.nil_append]
    cases readStrokes bytes <;> rfl
  | cons p points ih =>
    obtain ⟨hp, hpoints⟩ := List.forall_mem_cons.mp h
    rw [List.flatMap_cons, List.append_assoc, readStrokes_tek4010Point hp, ih hpoints,
      Option.map_map]
    rfl

theorem readStrokes_graphMode (bytes : List UInt8) :
    readStrokes (graphMode :: bytes) =
      (readStrokes bytes).map fun (points, strokes, rest) => ([], points :: strokes, rest) := by
  -- The plain equations split on the bytes behind the first one, which do not matter here.
  rw [readStrokes.eq_def (graphMode :: bytes)]
  dsimp only
  rw [if_neg (by decide), if_pos rfl]

/-- Reading finds the strokes that were written, and the end behind them. -/
theorem readStrokes_drawing {strokes : List (List ScreenPoint)}
    (h : ∀ points ∈ strokes, ∀ p ∈ points, p.OnScreen) :
    readStrokes (strokes.flatMap (fun points => graphMode :: points.flatMap tek4010Point) ++
      [alphaMode]) = some ([], strokes, []) := by
  induction strokes with
  | nil => rfl
  | cons points strokes ih =>
    obtain ⟨hpoints, hstrokes⟩ := List.forall_mem_cons.mp h
    rw [List.flatMap_cons, List.append_assoc, List.cons_append, readStrokes_graphMode,
      readStrokes_points hpoints, ih hstrokes]
    simp

end Reading

section Writing

/-- The points to which the pen goes for a stroke: for a dot it goes there twice. -/
def plottedPoints : List ScreenPoint → List ScreenPoint
  | [p] => [p, p]
  | points => points

/-- The points to which the pen goes, stroke by stroke. A stroke without points is no stroke for a
device. -/
def plottedStrokes (screen : List (List ScreenPoint)) : List (List ScreenPoint) :=
  (screen.filter fun points => points ≠ []).map plottedPoints

theorem mem_of_mem_plottedPoints {points : List ScreenPoint} {p : ScreenPoint}
    (h : p ∈ plottedPoints points) : p ∈ points := by
  unfold plottedPoints at h
  split at h
  · simpa using h
  · exact h

/-- The bytes of the moves for a stroke: one that starts it, and those of its points. -/
theorem flatMap_strokeMoves {points : List ScreenPoint} (hne : points ≠ []) :
    (strokeMoves points).flatMap tek4010Move =
      graphMode :: (plottedPoints points).flatMap tek4010Point := by
  have hdraws : ∀ more : List ScreenPoint,
      (more.map PenMove.drawTo).flatMap tek4010Move = more.flatMap tek4010Point := by
    intro more
    rw [List.flatMap_map]
    rfl
  match points with
  | [p] => rfl
  | p :: q :: more =>
    rw [strokeMoves, List.flatMap_cons, hdraws]
    · rfl
    · exact List.cons_ne_nil q more

/-- The bytes of a drawing are made of those of its strokes, each behind the byte that starts a
stroke, and of one that ends the drawing. A stroke takes four bytes for each of its points, none of
which is a control byte. -/
def Framed (strokes : List (List ScreenPoint)) (bytes : List UInt8) : Prop :=
  ∃ bodies : List (List UInt8), bytes = bodies.flatMap (fun body => graphMode :: body) ++
    [alphaMode] ∧ List.Forall₂ (fun points body => body.length = 4 * points.length ∧
      ∀ byte ∈ body, IsVectorByte byte) strokes bodies

theorem framed_drawing {strokes : List (List ScreenPoint)}
    (h : ∀ points ∈ strokes, ∀ p ∈ points, p.OnScreen) :
    Framed strokes (strokes.flatMap (fun points => graphMode :: points.flatMap tek4010Point) ++
      [alphaMode]) := by
  refine ⟨strokes.map (List.flatMap tek4010Point), ?_, ?_⟩
  · rw [List.flatMap_map]
  · rw [List.forall₂_map_right_iff, List.forall₂_same]
    intro points hpoints
    refine ⟨length_flatMap_const fun p _ => rfl, fun byte hbyte => ?_⟩
    obtain ⟨p, hp, hbyte⟩ := List.mem_flatMap.mp hbyte
    exact isVectorByte_of_mem_tek4010Point (h points hpoints p hp) byte hbyte

/-- The bytes of a drawing, stroke by stroke. -/
theorem flatMap_moves (screen : List (List ScreenPoint)) :
    (screen.flatMap strokeMoves).flatMap tek4010Move = (plottedStrokes screen).flatMap
      fun points => graphMode :: points.flatMap tek4010Point := by
  induction screen with
  | nil => rfl
  | cons points screen ih =>
    rw [List.flatMap_cons, List.flatMap_append, ih]
    by_cases hne : points = []
    · rw [hne]
      rfl
    · rw [flatMap_strokeMoves hne, plottedStrokes, plottedStrokes,
        List.filter_cons_of_pos (by simpa using hne), List.map_cons, List.flatMap_cons]

end Writing

section Drawing

variable {α : Type} [Scalar α]

/-- A point without a place on the screen: its coordinates are not finite, or it rounds to a column
or a row that the screen does not have. -/
def OffScreen (p : Point α) : Prop :=
  p.isFinite = false ∨ ¬ (0 ≤ Scalar.round p.x ∧ Scalar.round p.x ≤ 1023) ∨
    ¬ (0 ≤ Scalar.round p.y ∧ Scalar.round p.y ≤ 1023)

theorem ofPoint_eq_error_iff {p : Point α} :
    (∃ e, ScreenPoint.ofPoint p = .error e) ↔ OffScreen p := by
  have hsize : (screenSize : Int) = 1023 + 1 := rfl
  rw [OffScreen, ScreenPoint.ofPoint, hsize]
  cases hfinite : p.isFinite with
  | false => simp
  | true =>
    simp only [Bool.not_true, Bool.false_eq_true, if_false, Int.lt_add_one_iff]
    by_cases h : 0 ≤ Scalar.round p.x ∧ Scalar.round p.x ≤ 1023 ∧ 0 ≤ Scalar.round p.y ∧
        Scalar.round p.y ≤ 1023
    · rw [if_pos h]
      simp [h]
    · rw [if_neg h]
      simp only [Except.error.injEq, exists_eq', true_iff]
      tauto

/-- A drawing is refused if it has a point off the screen. -/
theorem screenStrokes_eq_error_iff {strokes : List (Stroke α)} :
    (∃ e, screenStrokes strokes = .error e) ↔ ∃ stroke ∈ strokes, ∃ p ∈ stroke, OffScreen p := by
  simp only [screenStrokes, exists_mapM_eq_error_iff, ofPoint_eq_error_iff]

theorem rounds_of_screenStrokes {strokes : List (Stroke α)} {screen : List (List ScreenPoint)}
    (h : screenStrokes strokes = .ok screen) :
    List.Forall₂ (List.Forall₂ Rounds) strokes screen ∧
      ∀ points ∈ screen, ∀ p ∈ points, p.OnScreen := by
  constructor
  · refine (mapM_eq_ok_iff.mp h).imp fun stroke points hstroke => ?_
    exact (mapM_eq_ok_iff.mp hstroke).imp fun p q hp => (rounds_of_ofPoint hp).1
  · intro points hpoints q hq
    obtain ⟨stroke, -, hstroke⟩ := exists_of_mem_mapM h hpoints
    obtain ⟨p, -, hp⟩ := exists_of_mem_mapM hstroke hq
    exact (rounds_of_ofPoint hp).2

/-- The terminal gets no drawing just if a point of it is off the screen. Otherwise the bytes are
read as the points of its strokes and are used up, and those that start a stroke or end the drawing
occur nowhere else. -/
theorem readDrawing_tek4010 (strokes : List (Stroke α)) :
    ((∃ e, tek4010 strokes = .error e) ↔ ∃ stroke ∈ strokes, ∃ p ∈ stroke, OffScreen p) ∧
      ∀ bytes, tek4010 strokes = .ok bytes →
        ∃ screen, List.Forall₂ (List.Forall₂ Rounds) strokes screen ∧
          readDrawing bytes = some (plottedStrokes screen, []) ∧
          Framed (plottedStrokes screen) bytes := by
  rw [← screenStrokes_eq_error_iff, tek4010]
  cases hscreen : screenStrokes strokes with
  | error e => exact ⟨⟨fun _ => ⟨e, rfl⟩, fun _ => ⟨e, rfl⟩⟩, nofun⟩
  | ok screen =>
    refine ⟨⟨nofun, nofun⟩, ?_⟩
    intro bytes h
    obtain rfl := Except.ok.inj h
    obtain ⟨hrounds, honScreen⟩ := rounds_of_screenStrokes hscreen
    -- What is plotted are points of the strokes, so that all of them are on the screen.
    have hplotted : ∀ points ∈ plottedStrokes screen, ∀ p ∈ points, p.OnScreen := by
      intro points hpoints p hp
      obtain ⟨stroke, hstroke, rfl⟩ := List.mem_map.mp hpoints
      exact honScreen stroke (List.mem_of_mem_filter hstroke) p (mem_of_mem_plottedPoints hp)
    refine ⟨screen, hrounds, ?_⟩
    rw [flatMap_moves, readDrawing, readStrokes_drawing hplotted]
    exact ⟨rfl, framed_drawing hplotted⟩

/-- A stroke without points, a dot whose coordinates lie between two places, and a line between two
corners of the screen. -/
def cornerDrawing : List (Stroke Rat) :=
  [[], [⟨1 / 2, 779⟩], [⟨0, -1 / 2⟩, ⟨1023, 1023⟩]]

theorem readDrawing_cornerDrawing : ∃ bytes, tek4010 cornerDrawing = .ok bytes ∧
    bytes.length = 19 ∧ ∃ screen, List.Forall₂ (List.Forall₂ Rounds) cornerDrawing screen ∧
      readDrawing bytes = some (plottedStrokes screen, []) ∧
      Framed (plottedStrokes screen) bytes := by
  have hok : (tek4010 cornerDrawing).toOption.any (fun bytes => bytes.length = 19) = true := by
    decide +kernel
  obtain ⟨bytes, h, hlength⟩ := exists_eq_ok_of_any hok
  exact ⟨bytes, h, of_decide_eq_true hlength, (readDrawing_tek4010 cornerDrawing).2 bytes h⟩

end Drawing

end Flipbook.Device
