import Flipbook.Proofs.Scene.Poses

/-!
# Moves to come do not matter

At a frame, the rule for a channel looks at the moves that have begun, and from there only at moves
that began still earlier. So the moves to come may be left out. If the last declared of all moves
has begun and is not outlasted, it decides, and it starts from what the others give.

## Main definitions

* `Channel.kept`: what a pose keeps of the value of a channel.

## Main results

* `Element.channel_poseAt`: a channel of a pose, by the rule;
* `prescribedValue_begun`: the moves that have begun give the value alone;
* `prescribedValue_concat`: what the last declared move makes of the value of the others.
-/

namespace Flipbook

variable {α : Type} {frame : Nat} {moves : List (ChannelMove α)} {m : ChannelMove α}

section Declared

variable {scriptMoves : List (Move α)} {id : String} {channel : Channel}

theorem declaredMoves_append (scriptMoves more : List (Move α)) (id : String) (channel : Channel) :
    declaredMoves (scriptMoves ++ more) id channel =
      declaredMoves scriptMoves id channel ++ declaredMoves more id channel :=
  List.filterMap_append

/-- What a channel sees of a script are moves of it. -/
theorem exists_of_mem_declaredMoves (h : m ∈ declaredMoves scriptMoves id channel) :
    ∃ move ∈ scriptMoves, move.elementId = id ∧ move.range = m.range ∧ move.order = m.order ∧
      m.op ∈ move.ops ∧ m.op.channel = channel := by
  obtain ⟨move, hmove, hseen⟩ := List.mem_filterMap.mp h
  split at hseen
  next hid =>
    obtain ⟨op, hop, rfl⟩ := Option.map_eq_some_iff.mp hseen
    have hchannel := List.find?_some hop
    exact ⟨move, hmove, hid, rfl, rfl, List.mem_of_find?_eq_some hop, of_decide_eq_true hchannel⟩
  next => cases hseen

end Declared

theorem begun_begun (frame : Nat) (moves : List (ChannelMove α)) :
    begun frame (begun frame moves) = begun frame moves := by
  simp only [begun, List.filter_filter, Bool.and_self]

theorem begun_append (frame : Nat) (moves more : List (ChannelMove α)) :
    begun frame (moves ++ more) = begun frame moves ++ begun frame more :=
  List.filter_append moves more

/-- A move to come has not begun. -/
theorem begun_singleton_of_lt (h : frame < m.range.first) : begun frame [m] = [] := by
  rw [begun, List.filter_cons_of_neg (by simpa using h), List.filter_nil]

theorem begun_singleton_of_le (h : m.range.first ≤ frame) : begun frame [m] = [m] := by
  rw [begun, List.filter_cons_of_pos (by simpa using h), List.filter_nil]

/-- What began before a move that has begun has begun itself. -/
theorem ChannelMove.before_begun (h : m.range.first ≤ frame) :
    m.before (begun frame moves) = m.before moves := by
  -- Whatever began before the move began by its first frame, and so by the frame itself.
  rw [before, before, begun, List.filter_filter]
  refine List.filter_congr fun c _ => ?_
  rw [← Bool.decide_and, decide_eq_decide, BeganBefore]
  omega

/-- Of moves that are declared in front of a move, those began before it that began by its first
frame. -/
theorem ChannelMove.before_concat (h : ∀ c ∈ moves, c.order < m.order) :
    m.before (moves ++ [m]) = begun m.range.first moves := by
  -- The move did not begin before itself. Of moves with the same first frame, those with smaller
  -- numbers began before it, and here all numbers are smaller.
  have hself : [m].filter (fun c => c.BeganBefore m) = [] := by
    rw [List.filter_cons_of_neg (by simpa using BeganBefore.irrefl m), List.filter_nil]
  rw [before, List.filter_append, hself, List.append_nil, begun]
  refine List.filter_congr fun c hc => ?_
  have horder := h c hc
  rw [decide_eq_decide, BeganBefore]
  omega

/-- The last of some moves, if it is among those with a property, is the last of them. -/
theorem getLast?_filter_concat {p : ChannelMove α → Bool} (h : p m = true) :
    ((moves ++ [m]).filter p).getLast? = some m := by
  rw [List.filter_append, List.filter_cons_of_pos h, List.filter_nil, List.getLast?_concat]

/-- The last declared move decides if it has begun and no other one that has begun got farther. -/
theorem decisive_concat (hbegun : m.range.first ≤ frame)
    (hends : ∀ c ∈ begun frame moves, min frame c.range.last ≤ m.range.last) :
    decisive frame (moves ++ [m]) = some m := by
  rw [decisive, begun_append, begun_singleton_of_le hbegun]
  by_cases hactive : frame ≤ m.range.last
  · rw [getLast?_filter_concat (decide_eq_true hactive), Option.some_or]
  · -- The move is over, and so are all others, none of which ended later.
    have hidle : ((begun frame moves ++ [m]).filter fun c => frame ≤ c.range.last) = [] := by
      rw [List.filter_eq_nil_iff, List.forall_mem_append, List.forall_mem_singleton]
      refine ⟨fun c hc => ?_, by simpa using hactive⟩
      have hend := hends c hc
      simp only [decide_eq_true_eq]
      omega
    have hlast : (begun frame moves ++ [m]).all (fun c => c.range.last ≤ m.range.last) = true := by
      rw [List.all_eq_true, List.forall_mem_append, List.forall_mem_singleton]
      refine ⟨fun c hc => decide_eq_true ?_, decide_eq_true (Nat.le_refl _)⟩
      have hend := hends c hc
      omega
    rw [hidle, List.getLast?_nil, Option.none_or, getLast?_filter_concat hlast]

section Value

variable [Scalar α] {initial : ChannelValue α}

/-- What a pose keeps of the value of a channel: a turn has no second component. -/
def Channel.kept (channel : Channel) (value : ChannelValue α) : ChannelValue α :=
  match channel with
  | .rotate => ⟨value.u, Scalar.ofInt 0⟩
  | _ => value

/-- A channel of the pose of an element at a frame, by the rule. -/
theorem Element.channel_poseAt {moves : List (Move α)}
    (horders : moves.map Move.order = List.range moves.length) (element : Element α)
    (channel : Channel) (frame : Nat) :
    (element.poseAt moves frame).channel channel = channel.kept
      (prescribedValue (element.pose.channel channel) (declaredMoves moves element.id channel)
        frame) := by
  rw [← channelValue_channelMoves horders]
  cases channel <;> rfl

theorem prescribedValue_of_none (h : decisive frame moves = none) :
    prescribedValue initial moves frame = initial := by
  rw [prescribedValue]
  split
  next => rfl
  next m hm => cases h.symm.trans hm

/-- The value that the deciding move gives. -/
theorem prescribedValue_of_some (h : decisive frame moves = some m) :
    prescribedValue initial moves frame =
      m.op.partway (m.range.span.progress (Scalar.ofNat frame))
        (prescribedValue initial (m.before moves) m.range.first) := by
  rw [prescribedValue]
  split
  next hnone => cases h.symm.trans hnone
  next m' hm =>
    obtain rfl := Option.some.inj (h.symm.trans hm)
    rfl

/-- Moves to come do not change the value of a channel. -/
theorem prescribedValue_begun (initial : ChannelValue α) (moves : List (ChannelMove α))
    (frame : Nat) :
    prescribedValue initial (begun frame moves) frame = prescribedValue initial moves frame := by
  -- The same move decides, and it starts from the same moves, so no induction is needed.
  have hsame : decisive frame (begun frame moves) = decisive frame moves := by
    rw [decisive, decisive, begun_begun]
  cases h : decisive frame moves with
  | none => rw [prescribedValue_of_none h, prescribedValue_of_none (hsame.trans h)]
  | some m =>
    have hm := (mem_begun.mp (decisive_mem_begun h)).2
    rw [prescribedValue_of_some h, prescribedValue_of_some (hsame.trans h),
      ChannelMove.before_begun hm]

/-- The last declared move, if it decides, starts from what the others give at its first frame. -/
theorem prescribedValue_concat (hdeclared : ∀ c ∈ moves, c.order < m.order)
    (hbegun : m.range.first ≤ frame)
    (hends : ∀ c ∈ begun frame moves, min frame c.range.last ≤ m.range.last) :
    prescribedValue initial (moves ++ [m]) frame =
      m.op.partway (m.range.span.progress (Scalar.ofNat frame))
        (prescribedValue initial moves m.range.first) := by
  rw [prescribedValue_of_some (decisive_concat hbegun hends), ChannelMove.before_concat hdeclared,
    prescribedValue_begun]

end Value

end Flipbook
