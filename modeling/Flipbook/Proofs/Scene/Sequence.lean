import Mathlib.Algebra.BigOperators.Group.List.Basic
import Mathlib.Data.List.Chain
import Flipbook.Proofs.Scene.Begun
import Flipbook.Proofs.Scene.Progress
import Flipbook.Proofs.Traverse

/-!
# Moves one after another

If each move of a channel begins when the one declared before it is over, or later, then every move
starts from what the earlier ones leave. In exact arithmetic their changes add up, in proportion to
the progress of each move, and factors multiply.

## Main definitions

* `Successive`: moves of which each one begins when those before it are over.
* `addedUp`: the value of a channel as a sum or a product over its moves.

## Main results

* `prescribedValue_eq_advance`: the rule lets each move advance the value in turn;
* `poseAt_successive`: the channel of a pose is the sum or the product.
-/

namespace Flipbook

variable {moves : List (ChannelMove Rat)} {m : ChannelMove Rat} {channel : Channel} {frame : Nat}
  {initial : ChannelValue Rat}

/-- No move begins before one that is declared in front of it is over. Both may share a frame, and
a move may take no time. -/
def Successive {α : Type} (moves : List (ChannelMove α)) : Prop :=
  moves.IsChain fun a b => a.range.last ≤ b.range.first

instance {α : Type} (moves : List (ChannelMove α)) : Decidable (Successive moves) :=
  inferInstanceAs (Decidable (List.IsChain _ _))

/-- The fraction of a move that is done at a frame. -/
def ChannelMove.progress (frame : Nat) (m : ChannelMove Rat) : Rat :=
  m.range.span.progress (Scalar.ofNat frame)

/-- What a change adds to each component, or multiplies it with. -/
def Transform.amount : Transform Rat → ChannelValue Rat
  | .translate dx dy => ⟨dx, dy⟩
  | .rotate degrees => ⟨degrees, 0⟩
  | .scale sx sy => ⟨sx, sy⟩

/-- The value of a channel, with what each move adds to it in proportion to its progress. Moves that
scale contribute a factor, which is one without progress. -/
def addedUp (channel : Channel) (initial : ChannelValue Rat) (moves : List (ChannelMove Rat))
    (frame : Nat) : ChannelValue Rat :=
  let total (component : ChannelValue Rat → Rat) : Rat :=
    (moves.map fun m => m.progress frame * component m.op.amount).sum
  let factor (component : ChannelValue Rat → Rat) : Rat :=
    (moves.map fun m => 1 + m.progress frame * (component m.op.amount - 1)).prod
  match channel with
  | .translate => ⟨initial.u + total ChannelValue.u, initial.v + total ChannelValue.v⟩
  | .rotate => ⟨initial.u + total ChannelValue.u, 0⟩
  | .scale => ⟨initial.u * factor ChannelValue.u, initial.v * factor ChannelValue.v⟩

/-- A value after each of some moves has advanced it in turn, as far as it has got. -/
def advance (frame : Nat) (moves : List (ChannelMove Rat)) (initial : ChannelValue Rat) :
    ChannelValue Rat :=
  moves.foldl (fun value m => m.op.partway (m.progress frame) value) initial

section Advance

theorem advance_concat (frame : Nat) (moves : List (ChannelMove Rat)) (m : ChannelMove Rat)
    (initial : ChannelValue Rat) : advance frame (moves ++ [m]) initial =
      m.op.partway (m.progress frame) (advance frame moves initial) := by
  rw [advance, List.foldl_concat, ← advance]

theorem advance_append (frame : Nat) (moves more : List (ChannelMove Rat))
    (initial : ChannelValue Rat) : advance frame (moves ++ more) initial =
      advance frame more (advance frame moves initial) :=
  List.foldl_append

/-- What a pose does not keep of a value makes no difference to what it keeps later. -/
theorem Channel.kept_partway_kept {op : Transform Rat} (hop : op.channel = channel) (t : Rat)
    (value : ChannelValue Rat) :
    channel.kept (op.partway t (channel.kept value)) = channel.kept (op.partway t value) := by
  subst hop
  cases op <;> rfl

theorem addedUp_concat (hop : m.op.channel = channel) :
    addedUp channel initial (moves ++ [m]) frame =
      channel.kept (m.op.partway (m.progress frame) (addedUp channel initial moves frame)) := by
  subst hop
  cases hchange : m.op <;>
    simp only [addedUp, Transform.channel, Transform.partway, Transform.amount, Channel.kept,
      hchange, List.map_append, List.map_singleton, List.sum_append, List.sum_singleton,
      List.prod_append, List.prod_singleton, Scalar.lerp]
  case translate => congr 1 <;> ring
  case rotate =>
    congr 1
    ring
  case scale => congr 1 <;> ring

/-- Advancing adds up the changes of the moves. -/
theorem kept_advance (hops : ∀ m ∈ moves, m.op.channel = channel) :
    channel.kept (advance frame moves initial) = addedUp channel initial moves frame := by
  -- The sum is taken over all moves, and the last one adds to it what it does to the value.
  induction moves using List.reverseRecOn with
  | nil =>
    have hzero : (Scalar.ofInt 0 : Rat) = 0 := rfl
    cases channel <;> simp [advance, addedUp, Channel.kept, hzero]
  | append_singleton moves m ih =>
    rw [List.forall_mem_append, List.forall_mem_singleton] at hops
    rw [advance_concat, ← Channel.kept_partway_kept hops.2, ih hops.1, ← addedUp_concat hops.2]

/-- Whether moves follow one another depends on when they go on. -/
theorem successive_map {others : List (ChannelMove Rat)}
    (h : others.map (fun m => (m.range, m.op)) = moves.map fun m => (m.range, m.op)) :
    Successive others ↔ Successive moves := by
  have hranges : others.map ChannelMove.range = moves.map ChannelMove.range := by
    simpa [Function.comp_def] using congrArg (List.map Prod.fst) h
  have hmap : ∀ ms : List (ChannelMove Rat), Successive ms ↔
      (ms.map ChannelMove.range).IsChain fun a b => a.last ≤ b.first := by
    intro ms
    rw [List.isChain_map, Successive]
  rw [hmap, hmap, hranges]

/-- Advancing depends on when moves go on and what they do, not on where they are declared. -/
theorem advance_eq_foldl_map (frame : Nat) (moves : List (ChannelMove Rat))
    (initial : ChannelValue Rat) : advance frame moves initial =
      (moves.map fun m => (m.range, m.op)).foldl
        (fun value c => c.2.partway (c.1.span.progress (Scalar.ofNat frame)) value) initial := by
  rw [List.foldl_map]
  rfl

/-- Moves that are over lead to their targets. -/
theorem advance_of_over (hordered : ∀ m ∈ moves, m.range.first ≤ m.range.last)
    (hover : ∀ m ∈ moves, m.range.last ≤ frame) (initial : ChannelValue Rat) :
    advance frame moves initial = moves.foldl (fun value m => m.op.target value) initial := by
  refine List.foldl_ext _ _ _ fun value m hm => ?_
  rw [ChannelMove.progress, FrameRange.progress_eq_one (hordered m hm) (hover m hm),
    Transform.partway_one]

/-- What a move of a channel leads to is kept. -/
theorem Channel.kept_target {op : Transform Rat} (hop : op.channel = channel)
    (value : ChannelValue Rat) : channel.kept (op.target value) = op.target value := by
  subst hop
  cases op <;> rfl

theorem Channel.kept_foldl_target (hops : ∀ m ∈ moves, m.op.channel = channel)
    (hinitial : channel.kept initial = initial) :
    channel.kept (moves.foldl (fun value m => m.op.target value) initial) =
      moves.foldl (fun value m => m.op.target value) initial := by
  -- A target is kept, whatever came before it, so only the last move counts here.
  cases moves using List.reverseRecOn with
  | nil => exact hinitial
  | append_singleton moves m =>
    rw [List.foldl_concat, Channel.kept_target (hops m (by simp))]

/-- Moves that are still to come leave a value as it is. -/
theorem advance_of_ahead (hordered : ∀ m ∈ moves, m.range.first ≤ m.range.last)
    (hahead : ∀ m ∈ moves, frame ≤ m.range.first ∧ frame < m.range.last)
    (initial : ChannelValue Rat) : advance frame moves initial = initial := by
  induction moves with
  | nil => rfl
  | cons m rest ih =>
    rw [List.forall_mem_cons] at hordered hahead
    have hstill : advance frame [m] initial = initial := by
      rw [advance, List.foldl_cons, List.foldl_nil, ChannelMove.progress,
        FrameRange.progress_eq_zero hordered.1 hahead.1.1 hahead.1.2, Transform.partway_zero]
    rw [← List.singleton_append, advance_append, hstill, ih hordered.2 hahead.2]

end Advance

section Rule

/-- Moves of a compiled script end no earlier than they begin, seen from one channel. -/
theorem range_of_mem_declaredMoves {timeline : Timeline Rat} (h : timeline.WellFormed) (id : String)
    (channel : Channel) :
    ∀ m ∈ declaredMoves timeline.moves id channel, m.range.first ≤ m.range.last := by
  intro m hm
  obtain ⟨move, hmove, -, hrange, -⟩ := exists_of_mem_declaredMoves hm
  rw [← hrange]
  refine (h.ranges move.range ?_).1
  exact List.mem_append_right _ (List.mem_append_left _ (List.mem_map_of_mem hmove))

/-- A move is over when any later one begins, not only the next. -/
theorem Successive.pairwise (h : Successive moves)
    (hordered : ∀ m ∈ moves, m.range.first ≤ m.range.last) :
    moves.Pairwise fun a b => a.range.last ≤ b.range.first := by
  induction h with
  | nil => exact .nil
  | singleton a => exact List.pairwise_singleton _ a
  | @cons_cons a b rest hab _ ih =>
    rw [List.forall_mem_cons] at hordered
    have hpairs := ih hordered.2
    refine List.pairwise_cons.mpr ⟨fun c hc => ?_, hpairs⟩
    rcases List.mem_cons.mp hc with rfl | hc
    · exact hab
    · -- The move in between may take no time, but it takes no less.
      have hlength := hordered.2 b List.mem_cons_self
      have hbc := (List.pairwise_cons.mp hpairs).1 c hc
      omega

/-- In a sequence of moves the rule lets each one advance the value in turn. -/
theorem prescribedValue_eq_advance (hdeclared : moves.Pairwise fun a b => a.order < b.order)
    (hordered : ∀ m ∈ moves, m.range.first ≤ m.range.last)
    (hsequence : moves.Pairwise fun a b => a.range.last ≤ b.range.first)
    (initial : ChannelValue Rat) (frame : Nat) :
    prescribedValue initial moves frame = advance frame moves initial := by
  -- From the last declared move to the first, as the rule does it. The frame varies, since a move
  -- asks for the value at its first frame.
  induction moves using List.reverseRecOn generalizing frame with
  | nil => exact prescribedValue_of_none rfl
  | append_singleton moves m ih =>
    rw [List.pairwise_append] at hdeclared hsequence
    obtain ⟨hdeclared, -, hlater⟩ := hdeclared
    obtain ⟨hsequence, -, hover⟩ := hsequence
    rw [List.forall_mem_append, List.forall_mem_singleton] at hordered
    have hbefore : ∀ c ∈ moves, c.range.last ≤ m.range.first := fun c hc => hover c hc m (by simp)
    rw [advance_concat]
    by_cases hbegun : m.range.first ≤ frame
    · -- The last move starts from what the others have led to, as they are all over.
      have hends : ∀ c ∈ begun frame moves, min frame c.range.last ≤ m.range.last := by
        intro c hc
        have hend := hbefore c (mem_begun.mp hc).1
        omega
      rw [prescribedValue_concat (fun c hc => hlater c hc m (by simp)) hbegun hends,
        ih hdeclared hordered.1 hsequence, advance_of_over hordered.1 hbefore,
        advance_of_over hordered.1 fun c hc => (hbefore c hc).trans hbegun]
      rfl
    · -- The last move has not begun, and advancing with it changes nothing.
      rw [← prescribedValue_begun, begun_append, begun_singleton_of_lt (by omega), List.append_nil,
        prescribedValue_begun, ih hdeclared hordered.1 hsequence, ChannelMove.progress,
        FrameRange.progress_eq_zero hordered.2 (by omega) (by omega), Transform.partway_zero]

variable {options : Script.Options} {text : String} {timeline : Timeline Rat}

/-- A channel of a pose is what the moves have made of its first value, if they follow one
another. -/
theorem channel_poseAt_eq_advance (h : Script.compile options text = .ok timeline)
    (element : Element Rat)
    (hsuccessive : Successive (declaredMoves timeline.moves element.id channel)) (frame : Nat) :
    (element.poseAt timeline.moves frame).channel channel = channel.kept
      (advance frame (declaredMoves timeline.moves element.id channel)
        (element.pose.channel channel)) := by
  have hformed := Script.compile_yields options text timeline h
  have hordered := range_of_mem_declaredMoves hformed element.id channel
  rw [Element.channel_poseAt hformed.resolved.orders, prescribedValue_eq_advance
    (pairwise_declaredMoves hformed.resolved.orders _ _) hordered (hsuccessive.pairwise hordered)]

end Rule

/-- If the moves of a channel follow one another, its value is the sum or the product of what they
do in proportion to their progress. So a move that is over holds exactly, the next one starts from
there, and nothing else in the script matters. -/
theorem poseAt_successive {options : Script.Options} {text : String} {timeline : Timeline Rat}
    (h : Script.compile options text = .ok timeline) (element : Element Rat) (channel : Channel)
    (hsuccessive : Successive (declaredMoves timeline.moves element.id channel)) (frame : Nat) :
    let initial := element.pose.channel channel
    let moves := declaredMoves timeline.moves element.id channel
    let value := (element.poseAt timeline.moves frame).channel channel
    value = addedUp channel initial moves frame ∧
      (∀ past ahead, moves = past ++ ahead → (∀ m ∈ past, m.range.last ≤ frame) →
        (∀ m ∈ ahead, frame ≤ m.range.first ∧ frame < m.range.last) →
        value = past.foldl (fun value m => m.op.target value) initial) ∧
      ∀ {options' text'} {other : Timeline Rat}, Script.compile options' text' = .ok other →
        (declaredMoves other.moves element.id channel).map (fun m => (m.range, m.op)) =
          moves.map (fun m => (m.range, m.op)) →
        (element.poseAt other.moves frame).channel channel = value := by
  intro initial moves value
  have hvalue : value = channel.kept (advance frame moves initial) :=
    channel_poseAt_eq_advance h element hsuccessive frame
  have hformed := Script.compile_yields options text timeline h
  have hordered : ∀ m ∈ moves, m.range.first ≤ m.range.last :=
    range_of_mem_declaredMoves hformed element.id channel
  have hops : ∀ m ∈ moves, m.op.channel = channel := by
    intro m hm
    obtain ⟨_, -, -, -, -, -, hchannel⟩ := exists_of_mem_declaredMoves hm
    exact hchannel
  refine ⟨hvalue.trans (kept_advance hops), ?_, ?_⟩
  · intro past ahead hsplit hover hahead
    rw [hsplit, List.forall_mem_append] at hops hordered
    have hinitial : channel.kept initial = initial := by cases channel <;> rfl
    rw [hvalue, hsplit, advance_append, advance_of_ahead hordered.2 hahead,
      advance_of_over hordered.1 hover, Channel.kept_foldl_target hops.1 hinitial]
  · intro options' text' other hother hsame
    have hsuccessive' : Successive (declaredMoves other.moves element.id channel) :=
      (successive_map hsame).mpr hsuccessive
    -- Both values come from one fold over what the moves do and when, and this is the same.
    rw [channel_poseAt_eq_advance hother element hsuccessive', hvalue, advance_eq_foldl_map, hsame,
      ← advance_eq_foldl_map]

/-- A script with three moves that follow one another. The second takes no time and shares a frame
with both others, and a move of another channel goes on all along. -/
def successiveScript : String :=
  "frames 30\nelement a arrow.plt translate 10 0\nmove a 0..10 translate 100 0\n" ++
    "move a 0..20 rotate 90\nmove a 10..10 translate 0 7\nmove a 10..20 translate 20 20"

theorem poseAt_successiveScript : ∃ timeline : Timeline Rat,
    Script.compile {} successiveScript = .ok timeline ∧ ∃ element ∈ timeline.elements,
      Successive (declaredMoves timeline.moves element.id .translate) ∧
        (element.poseAt timeline.moves 15).channel .translate = ⟨120, 17⟩ := by
  have hok : (Script.compile {} successiveScript : Except Error (Timeline Rat)).toOption.any
      (fun timeline => timeline.elements.any fun element =>
        Successive (declaredMoves timeline.moves element.id .translate) ∧
          addedUp .translate (element.pose.channel .translate)
            (declaredMoves timeline.moves element.id .translate) 15 = ⟨120, 17⟩) = true := by
    decide +kernel
  obtain ⟨timeline, h, hany⟩ := exists_eq_ok_of_any hok
  obtain ⟨element, helement, hvalue⟩ := List.any_eq_true.mp hany
  obtain ⟨hsuccessive, hadded⟩ := of_decide_eq_true hvalue
  refine ⟨timeline, h, element, helement, hsuccessive, ?_⟩
  exact (poseAt_successive h element .translate hsuccessive 15).1.trans hadded

end Flipbook
