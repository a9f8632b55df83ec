import Flipbook.Scene.Span

/-!
# Poses over time

A move changes a channel of a pose gradually, from the value at its first frame to that value
changed by its transform. Each channel is resolved on its own. Its value at a frame is decided by
one move: the last declared of those in progress, or else the one that finished last. That move
starts from the value that the moves begun before it give at its first frame.

## Main definitions

* `governing`: the move that decides a channel at a frame.
* `channelValue`: the value of a channel at a frame.
* `Element.poseAt`: the pose of an element at a frame.
-/

namespace Flipbook

variable {α : Type} [Scalar α]

open Scalar

/-- The value of a channel. A turn uses the first component alone. -/
structure ChannelValue (α : Type) where
  /-- The first component. -/
  u : α
  /-- The second component. -/
  v : α
  deriving DecidableEq, Repr

/-- The value of a channel of a pose. -/
def Pose.channel (pose : Pose α) : Channel → ChannelValue α
  | .translate => ⟨pose.x, pose.y⟩
  | .rotate => ⟨pose.rotation, ofInt 0⟩
  | .scale => ⟨pose.scaleX, pose.scaleY⟩

/-- The value that a transform leads to. -/
def Transform.target (start : ChannelValue α) : Transform α → ChannelValue α
  | .translate dx dy => ⟨start.u + dx, start.v + dy⟩
  | .rotate degrees => ⟨start.u + degrees, ofInt 0⟩
  | .scale sx sy => ⟨start.u * sx, start.v * sy⟩

/-- The value a fraction of the way between two. -/
def ChannelValue.lerp (a b : ChannelValue α) (t : α) : ChannelValue α :=
  ⟨Scalar.lerp a.u b.u t, Scalar.lerp a.v b.v t⟩

/-- A move, seen from one channel that it changes. -/
structure ChannelMove (α : Type) where
  /-- The frames over which the channel changes. -/
  range : FrameRange
  /-- The position of the move among all moves. -/
  order : Nat
  op : Transform α
  deriving DecidableEq, Repr

namespace ChannelMove

/-- Whether a move begins no later than another one; of two that begin together, the one that is
declared first counts as the earlier. -/
def startsBefore (a b : ChannelMove α) : Bool :=
  decide (a.range.first < b.range.first) ||
    (decide (a.range.first = b.range.first) && decide (a.order ≤ b.order))

/-- Whether a move that has begun decides a channel rather than another one. A move in progress
comes before one that is over. Of two in progress the last declared decides, and of two that are
over the one that ended last, or else the last declared. -/
def outranks (frame : Nat) (a b : ChannelMove α) : Bool :=
  match decide (frame ≤ a.range.last), decide (frame ≤ b.range.last) with
  | true, true => decide (b.order < a.order)
  | true, false => true
  | false, true => false
  | false, false =>
    decide (b.range.last < a.range.last) ||
      (decide (a.range.last = b.range.last) && decide (b.order < a.order))

end ChannelMove

/-- The moves of an element that change a channel, in the order in which they begin. -/
def channelMoves (moves : List (Move α)) (id : String) (channel : Channel) :
    List (ChannelMove α) :=
  let ofMove (m : Move α) : Option (ChannelMove α) :=
    if m.elementId = id then
      (m.ops.find? fun op => op.channel = channel).map fun op => ⟨m.range, m.order, op⟩
    else none
  (moves.filterMap ofMove).mergeSort ChannelMove.startsBefore

/-- The better of a move found so far and one more, each with its place in the list. -/
def preferred (frame : Nat) (best : Option (ChannelMove α × Nat)) (m : ChannelMove α × Nat) :
    Option (ChannelMove α × Nat) :=
  if m.1.range.first ≤ frame then
    match best with
    | none => some m
    | some b => if m.1.outranks frame b.1 then some m else some b
  else best

/-- The move that decides the value at a frame, with its place in the list. -/
def governing (frame : Nat) (moves : List (ChannelMove α)) : Option (ChannelMove α × Nat) :=
  moves.zipIdx.foldl (preferred frame) none

omit [Scalar α] in
/-- Choosing among moves yields the one chosen so far or one of the list. -/
theorem foldl_preferred_mem (frame : Nat) (ms : List (ChannelMove α × Nat))
    (best : Option (ChannelMove α × Nat)) (m : ChannelMove α × Nat)
    (h : ms.foldl (preferred frame) best = some m) : best = some m ∨ m ∈ ms := by
  induction ms generalizing best with
  | nil => exact Or.inl h
  | cons c cs ih =>
    rcases ih _ h with hc | hc
    · unfold preferred at hc
      split at hc
      · split at hc
        · simp_all
        · split at hc <;> simp_all
      · exact Or.inl hc
    · exact Or.inr (List.mem_cons_of_mem _ hc)

omit [Scalar α] in
/-- The deciding move is found at its place. -/
theorem governing_lt {frame : Nat} {moves : List (ChannelMove α)} {m : ChannelMove α} {i : Nat}
    (h : governing frame moves = some (m, i)) : i < moves.length := by
  rcases foldl_preferred_mem _ _ _ _ h with h | h
  · simp at h
  · have := List.mem_zipIdx h
    omega

set_option linter.unusedVariables false in
/-- The value of a channel at a frame. The deciding move starts from the value that the moves
before it give at its first frame. -/
def channelValue (initial : ChannelValue α) (moves : List (ChannelMove α)) (frame : Nat) :
    ChannelValue α :=
  match h : governing frame moves with
  | none => initial
  | some (m, i) =>
    let start := channelValue initial (moves.take i) m.range.first
    start.lerp (m.op.target start) (m.range.span.progress (ofNat frame))
termination_by moves.length
decreasing_by
  have := governing_lt h
  simp only [List.length_take]
  omega

/-- The pose of an element at a frame. -/
def Element.poseAt (element : Element α) (moves : List (Move α)) (frame : Nat) : Pose α :=
  let value (channel : Channel) : ChannelValue α :=
    channelValue (element.pose.channel channel) (channelMoves moves element.id channel) frame
  { x := (value .translate).u
    y := (value .translate).v
    rotation := (value .rotate).u
    scaleX := (value .scale).u
    scaleY := (value .scale).v }

end Flipbook
