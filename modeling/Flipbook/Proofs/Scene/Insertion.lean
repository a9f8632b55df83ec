import Flipbook.Proofs.Scene.Begun
import Flipbook.Proofs.Scene.Progress
import Flipbook.Proofs.Traverse

/-!
# One move more

One more move may go anywhere into a script, and the moves behind its place move up by one. What
the rule for a channel needs of the places of moves is only how they compare, so the moves that
stay give the same values as before. The new move counts only for its own element, for the channels
it changes, and from its first frame on. If it is declared last and takes time, it starts from the
value it finds.

## Main definitions

* `insertMove`: the moves of a script with one more at a place.

## Main results

* `prescribedValue_map_renumber`: only the sequence of moves matters, not the numbers they have;
* `poseAt_insertMove`: when one more move does not change a channel of a pose.
-/

namespace Flipbook

variable {α : Type}

/-- The number of a move when a place in front of it or at it is taken by another one. -/
def makeRoom (place order : Nat) : Nat :=
  if order < place then order else order + 1

theorem strictMono_makeRoom (place : Nat) : StrictMono (makeRoom place) := by
  intro a b hab
  rw [makeRoom, makeRoom]
  split <;> split <;> omega

theorem makeRoom_lt {place order : Nat} (h : order < place) : makeRoom place order < place := by
  rwa [makeRoom, if_pos h]

/-- A move under another number. -/
def Move.renumber (f : Nat → Nat) (m : Move α) : Move α :=
  { m with order := f m.order }

/-- The moves of a script with one more at a place. Those that were there and behind it are
numbered anew. -/
def insertMove (moves : List (Move α)) (place : Nat) (move : Move α) : List (Move α) :=
  let renumbered := moves.map (Move.renumber (makeRoom place))
  renumbered.take place ++ { move with order := place } :: renumbered.drop place

/-- Moves that know their positions still do with one more of them. -/
theorem map_order_insertMove {moves : List (Move α)} {place : Nat}
    (horders : moves.map Move.order = List.range moves.length) (hplace : place ≤ moves.length)
    (move : Move α) : (insertMove moves place move).map Move.order =
      List.range (insertMove moves place move).length := by
  have hrenumbered : (moves.map (Move.renumber (makeRoom place))).map Move.order =
      (List.range moves.length).map (makeRoom place) := by
    rw [← horders, List.map_map, List.map_map]
    rfl
  simp only [insertMove, List.map_append, List.map_cons, List.map_take, List.map_drop, hrenumbered]
  apply List.ext_getElem
  · simp
  intro i hi hi'
  -- In front of the place numbers stay, and behind it they are one more than they were.
  simp only [List.getElem_append, List.getElem_cons, List.getElem_take, List.getElem_drop,
    List.getElem_map, List.getElem_range, List.length_take, List.length_map, List.length_range,
    makeRoom]
  grind

namespace ChannelMove

/-- A move, seen from a channel, under another number. -/
def renumber (f : Nat → Nat) (m : ChannelMove α) : ChannelMove α :=
  { m with order := f m.order }

variable {f : Nat → Nat}

@[simp]
theorem range_renumber (m : ChannelMove α) : (m.renumber f).range = m.range := rfl

@[simp]
theorem op_renumber (m : ChannelMove α) : (m.renumber f).op = m.op := rfl

theorem beganBefore_renumber (hf : StrictMono f) {a b : ChannelMove α} :
    (a.renumber f).BeganBefore (b.renumber f) ↔ a.BeganBefore b := by
  simp only [BeganBefore, renumber, hf.lt_iff_lt]

theorem before_map_renumber (hf : StrictMono f) (m : ChannelMove α)
    (moves : List (ChannelMove α)) :
    (m.renumber f).before (moves.map (renumber f)) = (m.before moves).map (renumber f) := by
  rw [before, before, List.filter_map]
  congr 1
  exact List.filter_congr fun c _ => decide_eq_decide.mpr (beganBefore_renumber hf)

end ChannelMove

section Renumber

variable {f : Nat → Nat} {frame : Nat} {moves : List (ChannelMove α)}

theorem begun_map_renumber (frame : Nat) (moves : List (ChannelMove α)) :
    begun frame (moves.map (ChannelMove.renumber f)) =
      (begun frame moves).map (ChannelMove.renumber f) :=
  List.filter_map

theorem decisive_map_renumber (frame : Nat) (moves : List (ChannelMove α)) :
    decisive frame (moves.map (ChannelMove.renumber f)) =
      (decisive frame moves).map (ChannelMove.renumber f) := by
  rw [decisive, decisive, begun_map_renumber, List.filter_map, List.filter_map, List.getLast?_map,
    List.getLast?_map, Option.map_or]
  simp only [Function.comp_def, List.all_map, ChannelMove.range_renumber]
  rfl

theorem declaredMoves_map_renumber (moves : List (Move α)) (id : String) (channel : Channel) :
    declaredMoves (moves.map (Move.renumber f)) id channel =
      (declaredMoves moves id channel).map (ChannelMove.renumber f) := by
  rw [declaredMoves, declaredMoves, List.filterMap_map, List.map_filterMap]
  refine List.filterMap_congr fun m _ => ?_
  simp only [Function.comp_apply, Move.renumber, apply_ite (Option.map _), Option.map_map]
  rfl

variable [Scalar α]

/-- The numbers of moves do not matter for the value of a channel, as long as they compare as
before. -/
theorem prescribedValue_map_renumber (hf : StrictMono f) (initial : ChannelValue α)
    (moves : List (ChannelMove α)) (frame : Nat) :
    prescribedValue initial (moves.map (ChannelMove.renumber f)) frame =
      prescribedValue initial moves frame := by
  -- The start value of the deciding move is about fewer moves.
  induction hlength : moves.length using Nat.strongRecOn generalizing moves frame with
  | _ n ih =>
    have hdecisive := decisive_map_renumber (f := f) frame moves
    cases h : decisive frame moves with
    | none =>
      rw [h] at hdecisive
      rw [prescribedValue_of_none h, prescribedValue_of_none hdecisive]
    | some m =>
      rw [h] at hdecisive
      have hshorter := ChannelMove.length_before_lt (mem_begun.mp (decisive_mem_begun h)).1
      rw [prescribedValue_of_some h, prescribedValue_of_some hdecisive,
        ChannelMove.before_map_renumber hf, ChannelMove.range_renumber,
        ih _ (hlength ▸ hshorter) _ _ rfl, ChannelMove.op_renumber]

end Renumber

section Insertion

variable {moves : List (Move α)} {move : Move α} {id : String} {channel : Channel} {frame : Nat}

/-- A move that a channel does not see, or not yet, adds nothing to the moves that have begun. -/
theorem begun_declaredMoves_singleton_eq_nil (h : move.elementId ≠ id ∨
      (∀ op ∈ move.ops, op.channel ≠ channel) ∨ frame < move.range.first) :
    begun frame (declaredMoves [move] id channel) = [] := by
  rw [begun, List.filter_eq_nil_iff]
  intro m hm hbegun
  obtain ⟨move', hmove', hid, hrange, -, hop, hchannel⟩ := exists_of_mem_declaredMoves hm
  rw [List.mem_singleton] at hmove'
  subst hmove'
  rcases h with hother | hnone | hlater
  · exact hother hid
  · exact hnone m.op hop hchannel
  · rw [hrange] at hlater
    exact absurd (of_decide_eq_true hbegun) (Nat.not_le.mpr hlater)

/-- A new move that adds nothing to the moves that have begun only changes the numbers of others. -/
theorem begun_declaredMoves_insertMove {place : Nat}
    (h : begun frame (declaredMoves [{ move with order := place }] id channel) = []) :
    begun frame (declaredMoves (insertMove moves place move) id channel) =
      begun frame ((declaredMoves moves id channel).map (.renumber (makeRoom place))) := by
  rw [insertMove, declaredMoves_append, ← List.singleton_append, declaredMoves_append, begun_append,
    begun_append, h, List.nil_append, ← begun_append, ← declaredMoves_append,
    List.take_append_drop, declaredMoves_map_renumber]

variable [Scalar α]

theorem prescribedValue_insertMove {place : Nat} (initial : ChannelValue α)
    (h : move.elementId ≠ id ∨ (∀ op ∈ move.ops, op.channel ≠ channel) ∨
      frame < move.range.first) :
    prescribedValue initial (declaredMoves (insertMove moves place move) id channel) frame =
      prescribedValue initial (declaredMoves moves id channel) frame := by
  -- Among the moves that have begun the new one is missing, and only they count.
  have hnew : begun frame (declaredMoves [{ move with order := place }] id channel) = [] :=
    begun_declaredMoves_singleton_eq_nil h
  rw [← prescribedValue_begun, begun_declaredMoves_insertMove hnew, prescribedValue_begun,
    prescribedValue_map_renumber (strictMono_makeRoom place)]

end Insertion

/-- A move that is declared last and takes time starts from the value it finds. -/
theorem prescribedValue_insertMove_first {moves : List (Move Rat)} {move : Move Rat}
    (horders : moves.map Move.order = List.range moves.length)
    (htime : move.range.first < move.range.last) (initial : ChannelValue Rat) (id : String)
    (channel : Channel) :
    prescribedValue initial (declaredMoves (insertMove moves moves.length move) id channel)
        move.range.first =
      prescribedValue initial (declaredMoves moves id channel) move.range.first := by
  -- At the last place nothing is behind the new move, so the channel sees it at the end.
  have hconcat : declaredMoves (insertMove moves moves.length move) id channel =
      (declaredMoves moves id channel).map (.renumber (makeRoom moves.length)) ++
        declaredMoves [{ move with order := moves.length }] id channel := by
    rw [insertMove, List.take_of_length_le (by simp), List.drop_of_length_le (by simp),
      declaredMoves_append, declaredMoves_map_renumber]
  have hone : (declaredMoves [{ move with order := moves.length }] id channel).length ≤ 1 :=
    List.length_filterMap_le _ _
  rw [hconcat]
  rcases hnew : declaredMoves [{ move with order := moves.length }] id channel with
    _ | ⟨m, _ | ⟨m', rest⟩⟩
  · rw [List.append_nil, prescribedValue_map_renumber (strictMono_makeRoom _)]
  · -- The channel sees the new move, which has not changed anything at its first frame.
    obtain ⟨move', hmove', -, hrange, horder, -, -⟩ :=
      exists_of_mem_declaredMoves (hnew ▸ List.mem_singleton_self m)
    rw [List.mem_singleton] at hmove'
    subst hmove'
    have hdeclared : ∀ c ∈ (declaredMoves moves id channel).map
        (ChannelMove.renumber (makeRoom moves.length)), c.order < m.order := by
      intro c hc
      obtain ⟨d, hd, rfl⟩ := List.mem_map.mp hc
      obtain ⟨old, hold, -, -, hdorder, -, -⟩ := exists_of_mem_declaredMoves hd
      have hlt : old.order ∈ List.range moves.length := horders ▸ List.mem_map_of_mem hold
      rw [← horder]
      exact makeRoom_lt (hdorder ▸ List.mem_range.mp hlt)
    rw [show move.range = m.range from hrange] at htime ⊢
    rw [prescribedValue_concat hdeclared le_rfl fun c _ => by omega,
      FrameRange.progress_eq_zero htime.le le_rfl htime, Transform.partway_zero,
      prescribedValue_map_renumber (strictMono_makeRoom _)]
  · rw [hnew] at hone
    simp at hone

/-- One more move anywhere in a script leaves a channel of a pose as it is, if it is a move of
another element, does not change the channel, or begins later. A move that is declared last and
takes time leaves the channel as it is at its first frame as well, in exact arithmetic. -/
theorem poseAt_insertMove (options : Script.Options) (text : String) :
    (∀ {α : Type} [Scalar α] [FiniteUnits α] (timeline : Timeline α),
      Script.compile options text = .ok timeline →
      ∀ (element : Element α) (channel : Channel) (frame place : Nat) (move : Move α),
        place ≤ timeline.moves.length →
        (move.elementId ≠ element.id ∨ (∀ op ∈ move.ops, op.channel ≠ channel) ∨
          frame < move.range.first) →
        (element.poseAt (insertMove timeline.moves place move) frame).channel channel =
          (element.poseAt timeline.moves frame).channel channel) ∧
    (∀ (timeline : Timeline Rat), Script.compile options text = .ok timeline →
      ∀ (element : Element Rat) (channel : Channel) (move : Move Rat),
        move.range.first < move.range.last →
        (element.poseAt (insertMove timeline.moves timeline.moves.length move)
            move.range.first).channel channel =
          (element.poseAt timeline.moves move.range.first).channel channel) := by
  constructor
  · intro α _ _ timeline h element channel frame place move hplace hunseen
    have horders := (Script.compile_yields options text timeline h).resolved.orders
    rw [Element.channel_poseAt (map_order_insertMove horders hplace move),
      Element.channel_poseAt horders, prescribedValue_insertMove _ hunseen]
  · intro timeline h element channel move htime
    have horders := (Script.compile_yields options text timeline h).resolved.orders
    rw [Element.channel_poseAt (map_order_insertMove horders le_rfl move),
      Element.channel_poseAt horders, prescribedValue_insertMove_first horders htime]

/-- A move that begins while the second move of `overlappingScript` is under way. -/
def interruption : Move Rat where
  elementId := "a"
  range := ⟨9, 20⟩
  ops := [.translate 7 7]
  order := 0
  line := 0

theorem poseAt_insertMove_interruption : ∃ timeline : Timeline Rat,
    Script.compile {} overlappingScript = .ok timeline ∧ ∃ element ∈ timeline.elements,
      1 ≤ timeline.moves.length ∧
      (element.poseAt (insertMove timeline.moves 1 interruption) 8).channel .translate = ⟨60, 30⟩ ∧
      (element.poseAt (insertMove timeline.moves timeline.moves.length interruption) 9).channel
        .translate = ⟨60, 40⟩ := by
  let value (timeline : Timeline Rat) (element : Element Rat) (frame : Nat) : ChannelValue Rat :=
    prescribedValue (element.pose.channel .translate)
      (declaredMoves timeline.moves element.id .translate) frame
  have hok : (Script.compile {} overlappingScript : Except Error (Timeline Rat)).toOption.any
      (fun timeline => timeline.elements.any fun element => 1 ≤ timeline.moves.length ∧
        value timeline element 8 = ⟨60, 30⟩ ∧ value timeline element 9 = ⟨60, 40⟩) = true := by
    decide +kernel
  obtain ⟨timeline, h, hany⟩ := exists_eq_ok_of_any hok
  obtain ⟨element, helement, hvalues⟩ := List.any_eq_true.mp hany
  obtain ⟨hlength, hbefore, hfirst⟩ := of_decide_eq_true hvalues
  have horders := (Script.compile_yields {} overlappingScript timeline h).resolved.orders
  refine ⟨timeline, h, element, helement, hlength, ?_, ?_⟩
  · rw [(poseAt_insertMove {} overlappingScript).1 timeline h element .translate 8 1 interruption
      hlength (.inr (.inr (by decide))), Element.channel_poseAt horders]
    exact hbefore
  · have hkept := (poseAt_insertMove {} overlappingScript).2 timeline h element .translate
      interruption (by decide)
    refine hkept.trans ?_
    rw [Element.channel_poseAt horders]
    exact hfirst

end Flipbook
