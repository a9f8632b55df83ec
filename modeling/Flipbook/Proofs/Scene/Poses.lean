import Mathlib.Data.List.MinMax
import Mathlib.Data.List.Nodup
import Mathlib.Data.Prod.Lex
import Flipbook.Proofs.Script.Compile
import Flipbook.Scene.Tween

/-!
# Poses follow the rule of moves

The rule for a channel at a frame speaks of moves in the order of the script. Among the moves that
have begun, the last declared of those in progress decides, and if none is in progress, the last
declared of those with the greatest end. The deciding move starts from what the same rule gives at
its first frame for the moves that began before it. Tweening follows this rule, although it sorts
the moves, finds the deciding one in a single pass, and cuts the sorted list in front of it.

## Main definitions

* `decisive`: the move that the rule names.
* `prescribedValue`, `Element.prescribedPose`: channel and pose by the rule.

## Main results

* `Governs.of_governing`, `Governs.of_decisive`: both searches find the move of highest rank;
* `channelValue_eq_prescribed`: the order in which moves are kept does not matter;
* `poseAt_eq_prescribed`: poses of a compiled script are those that the rule prescribes.
-/

namespace Flipbook

variable {α : Type}

/-- The moves of an element that change a channel, in the order of the script. -/
def declaredMoves (moves : List (Move α)) (id : String) (channel : Channel) :
    List (ChannelMove α) :=
  moves.filterMap fun m =>
    if m.elementId = id then
      (m.ops.find? fun op => op.channel = channel).map fun op => ⟨m.range, m.order, op⟩
    else none

namespace ChannelMove

/-- A move began before another one: at an earlier frame, or at the same frame and declared
earlier. -/
def BeganBefore (a b : ChannelMove α) : Prop :=
  a.range.first < b.range.first ∨ a.range.first = b.range.first ∧ a.order < b.order

instance (a b : ChannelMove α) : Decidable (a.BeganBefore b) :=
  inferInstanceAs (Decidable (_ ∨ _))

theorem BeganBefore.irrefl (m : ChannelMove α) : ¬ m.BeganBefore m := by
  rintro (hfirst | ⟨-, horder⟩)
  · exact Nat.lt_irrefl _ hfirst
  · exact Nat.lt_irrefl _ horder

theorem BeganBefore.asymm {a b : ChannelMove α} (h : a.BeganBefore b) : ¬ b.BeganBefore a := by
  rw [BeganBefore] at h ⊢
  omega

/-- The moves of a list that began before a move. -/
def before (m : ChannelMove α) (moves : List (ChannelMove α)) : List (ChannelMove α) :=
  moves.filter fun c => c.BeganBefore m

theorem length_before_lt {m : ChannelMove α} {moves : List (ChannelMove α)} (h : m ∈ moves) :
    (m.before moves).length < moves.length := by
  rw [before, List.length_filter_lt_length_iff_exists]
  exact ⟨m, h, by simpa using BeganBefore.irrefl m⟩

/-- What decides between moves that have begun: how far each of them has got, up to the frame, and
then their order. -/
def rank (frame : Nat) (m : ChannelMove α) : ℕ ×ₗ ℕ :=
  toLex (min frame m.range.last, m.order)

theorem rank_le_iff {frame : Nat} {a b : ChannelMove α} : a.rank frame ≤ b.rank frame ↔
    min frame a.range.last < min frame b.range.last ∨
      min frame a.range.last = min frame b.range.last ∧ a.order ≤ b.order :=
  Prod.Lex.toLex_le_toLex

theorem outranks_iff {frame : Nat} {a b : ChannelMove α} :
    a.outranks frame b = true ↔ b.rank frame < a.rank frame := by
  rw [rank, rank, Prod.Lex.toLex_lt_toLex]
  unfold outranks
  by_cases ha : frame ≤ a.range.last <;> by_cases hb : frame ≤ b.range.last
  all_goals simp only [ha, hb, decide_true, decide_false, Bool.or_eq_true, Bool.and_eq_true,
    decide_eq_true_eq, true_iff, reduceCtorEq, false_iff]
  all_goals omega

end ChannelMove

section Rule

variable {frame : Nat} {moves : List (ChannelMove α)} {m : ChannelMove α}

/-- The moves that have begun. -/
def begun (frame : Nat) (moves : List (ChannelMove α)) : List (ChannelMove α) :=
  moves.filter fun m => m.range.first ≤ frame

/-- The move that decides by the rule, of moves in the order of the script: the last declared of
those in progress, or else the last declared of those that no other one outlasts. -/
def decisive (frame : Nat) (moves : List (ChannelMove α)) : Option (ChannelMove α) :=
  ((begun frame moves).filter fun m => frame ≤ m.range.last).getLast?.or
    ((begun frame moves).filter fun m =>
      (begun frame moves).all fun c => c.range.last ≤ m.range.last).getLast?

theorem mem_begun : m ∈ begun frame moves ↔ m ∈ moves ∧ m.range.first ≤ frame := by
  simp [begun]

theorem decisive_mem_begun (h : decisive frame moves = some m) : m ∈ begun frame moves := by
  rcases Option.or_eq_some_iff.mp h with hactive | ⟨-, hover⟩
  · exact List.mem_of_mem_filter (List.mem_of_getLast? hactive)
  · exact List.mem_of_mem_filter (List.mem_of_getLast? hover)

variable [Scalar α]

open Scalar

/-- The value a fraction of the way through a change. -/
def Transform.partway (t : α) (start : ChannelValue α) : Transform α → ChannelValue α
  | .translate dx dy =>
    ⟨Scalar.lerp start.u (start.u + dx) t, Scalar.lerp start.v (start.v + dy) t⟩
  | .rotate degrees => ⟨Scalar.lerp start.u (start.u + degrees) t, Scalar.lerp start.v (ofInt 0) t⟩
  | .scale sx sy => ⟨Scalar.lerp start.u (start.u * sx) t, Scalar.lerp start.v (start.v * sy) t⟩

/-- The value of a channel by the rule, of moves in the order of the script. -/
def prescribedValue (initial : ChannelValue α) (moves : List (ChannelMove α)) (frame : Nat) :
    ChannelValue α :=
  match h : decisive frame moves with
  | none => initial
  | some m =>
    let start := prescribedValue initial (m.before moves) m.range.first
    m.op.partway (m.range.span.progress (ofNat frame)) start
termination_by moves.length
decreasing_by
  exact ChannelMove.length_before_lt (mem_begun.mp (decisive_mem_begun h)).1

/-- The pose of an element by the rule, channel by channel. -/
def Element.prescribedPose (element : Element α) (moves : List (Move α)) (frame : Nat) : Pose α :=
  let value (channel : Channel) : ChannelValue α :=
    prescribedValue (element.pose.channel channel) (declaredMoves moves element.id channel) frame
  { x := (value .translate).u
    y := (value .translate).v
    rotation := (value .rotate).u
    scaleX := (value .scale).u
    scaleY := (value .scale).v }

end Rule

/-- A move has begun, and of all that have begun it ranks highest. -/
structure Governs (frame : Nat) (moves : List (ChannelMove α)) (m : ChannelMove α) : Prop where
  mem : m ∈ begun frame moves
  highest : ∀ c ∈ begun frame moves, c.rank frame ≤ m.rank frame

section Governs

variable {frame : Nat} {moves : List (ChannelMove α)} {m : ChannelMove α}

theorem begun_perm {moves' : List (ChannelMove α)} (h : moves.Perm moves') :
    (begun frame moves).Perm (begun frame moves') :=
  h.filter _

theorem Governs.perm {moves' : List (ChannelMove α)} (h : Governs frame moves m)
    (hperm : moves.Perm moves') : Governs frame moves' m where
  mem := (begun_perm hperm).mem_iff.mp h.mem
  highest c hc := h.highest c ((begun_perm hperm).mem_iff.mpr hc)

/-- Only one move governs, since no two moves have the same place in the script. -/
theorem Governs.unique {m' : ChannelMove α} (h : Governs frame moves m)
    (h' : Governs frame moves m') (hdeclared : moves.Pairwise fun a b => a.order < b.order) :
    m = m' := by
  -- The rank ends in the place in the script, so it tells moves apart.
  have hrank : m.rank frame = m'.rank frame :=
    le_antisymm (h'.highest m h.mem) (h.highest m' h'.mem)
  have horder : m.order = m'.order := congrArg (fun r => (ofLex r).2) hrank
  have hnodup : (moves.map ChannelMove.order).Nodup :=
    List.pairwise_map.mpr (hdeclared.imp Nat.ne_of_lt)
  exact List.inj_on_of_nodup_map hnodup (mem_begun.mp h.mem).1 (mem_begun.mp h'.mem).1 horder

/-- The last item of a list that is in the order of the script was declared last. -/
theorem order_le_of_getLast? {ms : List (ChannelMove α)}
    (hdeclared : ms.Pairwise fun a b => a.order < b.order) (h : ms.getLast? = some m) :
    ∀ c ∈ ms, c.order ≤ m.order := by
  obtain ⟨front, rfl⟩ := List.getLast?_eq_some_iff.mp h
  intro c hc
  rcases List.mem_append.mp hc with hfront | hlast
  · exact Nat.le_of_lt ((List.pairwise_append.mp hdeclared).2.2 c hfront m List.mem_cons_self)
  · rw [List.mem_singleton.mp hlast]

/-- The rule names the move of highest rank. -/
theorem Governs.of_decisive (hdeclared : moves.Pairwise fun a b => a.order < b.order)
    (h : decisive frame moves = some m) : Governs frame moves m := by
  refine ⟨decisive_mem_begun h, fun c hc => ?_⟩
  have hbegun : (begun frame moves).Pairwise fun a b => a.order < b.order := hdeclared.filter _
  rw [ChannelMove.rank_le_iff]
  rcases Option.or_eq_some_iff.mp h with hactive | ⟨hnone, hover⟩
  · -- `m` is in progress, so it has got as far as any move can.
    have hm : frame ≤ m.range.last :=
      of_decide_eq_true (List.mem_filter.mp (List.mem_of_getLast? hactive)).2
    have hlast := order_le_of_getLast? (hbegun.filter _) hactive c
    by_cases hcin : frame ≤ c.range.last
    · have horder := hlast (List.mem_filter.mpr ⟨hc, decide_eq_true hcin⟩)
      omega
    · omega
  · -- No move is in progress, so all of them have got as far as their ends.
    have hends : ∀ d ∈ begun frame moves, d.range.last < frame := by
      intro d hd
      rw [List.getLast?_eq_none_iff, List.filter_eq_nil_iff] at hnone
      simpa using hnone d hd
    have hmgreatest := (List.mem_filter.mp (List.mem_of_getLast? hover)).2
    rw [List.all_eq_true] at hmgreatest
    have hle := of_decide_eq_true (hmgreatest c hc)
    have hmend := hends m (decisive_mem_begun h)
    by_cases hsame : c.range.last = m.range.last
    · have horder := order_le_of_getLast? (hbegun.filter _) hover c
        (List.mem_filter.mpr ⟨hc, by rwa [hsame, List.all_eq_true]⟩)
      omega
    · omega

/-- The rule names no move only if none has begun. -/
theorem begun_eq_nil_of_decisive (h : decisive frame moves = none) : begun frame moves = [] := by
  obtain ⟨-, hover⟩ := Option.or_eq_none_iff.mp h
  rw [List.getLast?_eq_none_iff, List.filter_eq_nil_iff] at hover
  by_contra hne
  -- Some move ends last, and so the list of those that end last is not empty.
  let ends (c : ChannelMove α) : Nat := c.range.last
  obtain ⟨m, hm⟩ := Option.ne_none_iff_exists'.mp (mt (List.argmax_eq_none (f := ends)).mp hne)
  apply hover m (List.argmax_mem hm)
  rw [List.all_eq_true]
  intro c hc
  exact decide_eq_true (List.le_of_mem_argmax (f := ends) hc hm)

end Governs

section Governing

variable {frame : Nat} {m : ChannelMove α} {i : Nat}

/-- One more move is taken if it has begun and ranks higher than the one found so far. -/
theorem preferred_cases (frame : Nat) (best : Option (ChannelMove α × Nat))
    (c : ChannelMove α × Nat) :
    preferred frame best c = best ∧
        (c.1.range.first ≤ frame → ∃ b ∈ best, c.1.rank frame ≤ b.1.rank frame) ∨
      preferred frame best c = some c ∧ c.1.range.first ≤ frame ∧
        ∀ b ∈ best, b.1.rank frame ≤ c.1.rank frame := by
  unfold preferred
  split
  next hbegun =>
    cases best with
    | none => exact .inr ⟨rfl, hbegun, fun b hb => absurd hb (Option.not_mem_none b)⟩
    | some b =>
      dsimp only
      split
      next hout =>
        refine .inr ⟨rfl, hbegun, fun d hd => ?_⟩
        rw [← Option.some.inj hd]
        exact le_of_lt (ChannelMove.outranks_iff.mp hout)
      next hout =>
        refine .inl ⟨rfl, fun _ => ⟨b, rfl, ?_⟩⟩
        rw [ChannelMove.outranks_iff] at hout
        exact not_lt.mp hout
  next hlater => exact .inl ⟨rfl, fun h => absurd h hlater⟩

/-- Choosing among moves yields one that has begun, and none that has begun ranks higher. -/
theorem foldl_preferred_rank (ms : List (ChannelMove α × Nat)) :
    ∀ best r, ms.foldl (preferred frame) best = some r →
      (∀ b ∈ best, b.1.range.first ≤ frame) → r.1.range.first ≤ frame ∧
        (∀ b ∈ best, b.1.rank frame ≤ r.1.rank frame) ∧
        ∀ c ∈ ms, c.1.range.first ≤ frame → c.1.rank frame ≤ r.1.rank frame := by
  induction ms with
  | nil =>
    rintro best r rfl hbest
    refine ⟨hbest r rfl, fun b hb => ?_, fun c hc => absurd hc List.not_mem_nil⟩
    rw [Option.some.inj hb]
  | cons d ms ih =>
    -- Whether `d` is taken or not, what is found so far ranks as high as `d` and all before it.
    intro best r hr hbest
    rw [List.foldl_cons] at hr
    rcases preferred_cases frame best d with ⟨hkept, hd⟩ | ⟨htaken, hdbegun, hd⟩
    · rw [hkept] at hr
      obtain ⟨hrbegun, hbr, hms⟩ := ih best r hr hbest
      refine ⟨hrbegun, hbr, List.forall_mem_cons.mpr ⟨fun hdbegun => ?_, hms⟩⟩
      obtain ⟨b, hb, hdb⟩ := hd hdbegun
      exact hdb.trans (hbr b hb)
    · rw [htaken] at hr
      obtain ⟨hrbegun, hdr, hms⟩ := ih (some d) r hr (by simpa using hdbegun)
      have hdr' : d.1.rank frame ≤ r.1.rank frame := hdr d rfl
      exact ⟨hrbegun, fun b hb => (hd b hb).trans hdr',
        List.forall_mem_cons.mpr ⟨fun _ => hdr', hms⟩⟩

/-- If no move is found, none has begun. -/
theorem foldl_preferred_none (ms : List (ChannelMove α × Nat)) :
    ∀ best, ms.foldl (preferred frame) best = none →
      best = none ∧ ∀ c ∈ ms, ¬ c.1.range.first ≤ frame := by
  induction ms with
  | nil => exact fun best h => ⟨h, List.forall_mem_nil _⟩
  | cons d ms ih =>
    intro best h
    obtain ⟨hnone, hms⟩ := ih _ h
    rcases preferred_cases frame best d with ⟨hkept, hd⟩ | ⟨htaken, -⟩
    · rw [hkept] at hnone
      refine ⟨hnone, List.forall_mem_cons.mpr ⟨fun hdbegun => ?_, hms⟩⟩
      obtain ⟨b, hb, -⟩ := hd hdbegun
      rw [hnone] at hb
      cases hb
    · rw [htaken] at hnone
      cases hnone

/-- The single pass finds the move of highest rank, and its place. -/
theorem Governs.of_governing {moves : List (ChannelMove α)}
    (h : governing frame moves = some (m, i)) :
    Governs frame moves m ∧ moves[i]? = some m := by
  have hplace : (m, i) ∈ moves.zipIdx := by
    rcases foldl_preferred_mem frame _ none _ h with hnone | hmem
    · cases hnone
    · exact hmem
  obtain ⟨hbegun, -, hrank⟩ :=
    foldl_preferred_rank _ none (m, i) h fun b hb => absurd hb (Option.not_mem_none b)
  refine ⟨⟨mem_begun.mpr ⟨List.fst_mem_of_mem_zipIdx hplace, hbegun⟩, fun c hc => ?_⟩,
    List.mk_mem_zipIdx_iff_getElem?.mp hplace⟩
  obtain ⟨hcmem, hcbegun⟩ := mem_begun.mp hc
  obtain ⟨j, hj⟩ := List.mem_iff_getElem?.mp hcmem
  exact hrank (c, j) (List.mk_mem_zipIdx_iff_getElem?.mpr hj) hcbegun

theorem begun_eq_nil_of_governing {moves : List (ChannelMove α)}
    (h : governing frame moves = none) : begun frame moves = [] := by
  rw [begun, List.filter_eq_nil_iff]
  intro c hc
  obtain ⟨j, hj⟩ := List.mem_iff_getElem?.mp hc
  have hlater := (foldl_preferred_none _ none h).2 (c, j) (List.mk_mem_zipIdx_iff_getElem?.mpr hj)
  simpa using hlater

end Governing

section Sorting

/-- Cutting a sorted list in front of a move leaves the moves that began before it. -/
theorem take_eq_before {sorted : List (ChannelMove α)} {m : ChannelMove α} {i : Nat}
    (hsorted : sorted.Pairwise ChannelMove.BeganBefore) (h : sorted[i]? = some m) :
    sorted.take i = m.before sorted := by
  obtain ⟨hi, hm⟩ := List.getElem?_eq_some_iff.mp h
  have hsplit : sorted = sorted.take i ++ m :: sorted.drop (i + 1) := by
    rw [← hm, List.getElem_cons_drop, List.take_append_drop]
  -- All in front of `m` began before it, and none of those behind did.
  generalize sorted.take i = front at hsplit ⊢
  generalize sorted.drop (i + 1) = back at hsplit
  rw [hsplit, List.pairwise_append, List.pairwise_cons] at hsorted
  obtain ⟨-, ⟨hback, -⟩, hfront⟩ := hsorted
  have hkept : front.filter (fun c => c.BeganBefore m) = front :=
    List.filter_eq_self.mpr fun c hc => decide_eq_true (hfront c hc m List.mem_cons_self)
  have hdropped : (m :: back).filter (fun c => c.BeganBefore m) = [] := by
    rw [List.filter_eq_nil_iff, List.forall_mem_cons]
    refine ⟨by simpa using ChannelMove.BeganBefore.irrefl m, fun c hc => ?_⟩
    simpa using (hback c hc).asymm
  rw [ChannelMove.before, hsplit, List.filter_append, hkept, hdropped, List.append_nil]

variable [Scalar α]

/-- The value of a channel is what the rule prescribes, if moves that are sorted by their beginning
are the moves of the script. -/
theorem channelValue_eq_prescribed (initial : ChannelValue α) {sorted moves : List (ChannelMove α)}
    (hperm : sorted.Perm moves) (hsorted : sorted.Pairwise ChannelMove.BeganBefore)
    (hdeclared : moves.Pairwise fun a b => a.order < b.order) (frame : Nat) :
    channelValue initial sorted frame = prescribedValue initial moves frame := by
  -- Each deciding move leaves fewer moves to be considered.
  induction hlength : moves.length using Nat.strongRecOn generalizing sorted moves frame with
  | _ n ih =>
    rw [channelValue, prescribedValue]
    -- Both searches find something or neither does, since both are about the moves that have begun.
    split
    next hgoverning =>
      have hnil : begun frame moves = [] := by
        have hperm' : (begun frame sorted).Perm (begun frame moves) := begun_perm hperm
        rw [begun_eq_nil_of_governing hgoverning] at hperm'
        exact hperm'.symm.eq_nil
      split
      next => rfl
      next m hdecisive =>
        have hm := decisive_mem_begun hdecisive
        rw [hnil] at hm
        cases hm
    next m i hgoverning =>
      obtain ⟨hgoverns, hplace⟩ := Governs.of_governing hgoverning
      have hgoverns' := hgoverns.perm hperm
      split
      next hdecisive =>
        have hm := hgoverns'.mem
        rw [begun_eq_nil_of_decisive hdecisive] at hm
        cases hm
      next m' hdecisive =>
        obtain rfl : m = m' := hgoverns'.unique (.of_decisive hdeclared hdecisive) hdeclared
        have hmem : m ∈ moves := (mem_begun.mp hgoverns'.mem).1
        have hstart : channelValue initial (sorted.take i) m.range.first =
            prescribedValue initial (m.before moves) m.range.first := by
          rw [take_eq_before hsorted hplace]
          refine ih (m.before moves).length ?_ (hperm.filter _) (hsorted.filter _)
            (hdeclared.filter _) _ rfl
          rw [← hlength]
          exact ChannelMove.length_before_lt hmem
        dsimp only
        rw [hstart]
        cases m.op <;> rfl

omit [Scalar α] in
/-- Sorting moves in the order of the script puts them in the order in which they begin. -/
theorem pairwise_mergeSort_startsBefore {moves : List (ChannelMove α)}
    (hdeclared : moves.Pairwise fun a b => a.order < b.order) :
    (moves.mergeSort ChannelMove.startsBefore).Pairwise ChannelMove.BeganBefore := by
  have hiff : ∀ a b : ChannelMove α, a.startsBefore b = true ↔
      a.range.first < b.range.first ∨ a.range.first = b.range.first ∧ a.order ≤ b.order := by
    intro a b
    simp [ChannelMove.startsBefore]
  have hweak : (moves.mergeSort ChannelMove.startsBefore).Pairwise
      fun a b => a.startsBefore b = true :=
    List.pairwise_mergeSort (fun a b c => by simp only [hiff]; omega)
      (fun a b => by simp only [Bool.or_eq_true, hiff]; omega) moves
  have hnodup : (moves.mergeSort ChannelMove.startsBefore).Pairwise
      fun a b => a.order ≠ b.order := by
    refine (List.Perm.pairwise_iff (fun h => Ne.symm h) (List.mergeSort_perm _ _)).mpr ?_
    exact hdeclared.imp Nat.ne_of_lt
  -- Sorting leaves equal moves as they are, but no two moves have the same place in the script.
  refine (hweak.and hnodup).imp ?_
  rintro a b ⟨hle, hne⟩
  rw [hiff] at hle
  rw [ChannelMove.BeganBefore]
  omega

end Sorting

section Declared

/-- Moves that know their positions stay in the order of the script, seen from one channel. -/
theorem pairwise_declaredMoves {moves : List (Move α)}
    (horders : moves.map Move.order = List.range moves.length) (id : String) (channel : Channel) :
    (declaredMoves moves id channel).Pairwise fun a b => a.order < b.order := by
  have hmoves : moves.Pairwise fun a b => a.order < b.order := by
    rw [← List.pairwise_map, horders]
    exact List.pairwise_lt_range
  -- What a channel sees of a move keeps its place.
  refine hmoves.filterMap _ ?_
  intro a b hab c hc d hd
  have horder : ∀ (m : Move α) (c : ChannelMove α), (if m.elementId = id then
      (m.ops.find? fun op => op.channel = channel).map fun op => ⟨m.range, m.order, op⟩
      else none) = some c → c.order = m.order := by
    intro m c h
    split at h
    · obtain ⟨op, -, rfl⟩ := Option.map_eq_some_iff.mp h
      rfl
    · cases h
  rwa [horder a c hc, horder b d hd]

variable [Scalar α]

/-- The value of a channel is what the rule prescribes for the moves of the script. -/
theorem channelValue_channelMoves {moves : List (Move α)}
    (horders : moves.map Move.order = List.range moves.length) (initial : ChannelValue α)
    (id : String) (channel : Channel) (frame : Nat) :
    channelValue initial (channelMoves moves id channel) frame =
      prescribedValue initial (declaredMoves moves id channel) frame := by
  have hdeclared := pairwise_declaredMoves horders id channel
  exact channelValue_eq_prescribed initial (List.mergeSort_perm _ _)
    (pairwise_mergeSort_startsBefore hdeclared) hdeclared frame

end Declared

variable [Scalar α] [FiniteUnits α]

/-- The pose of an element at a frame is the one that the rule prescribes. -/
theorem poseAt_eq_prescribed {options : Script.Options} {text : String} {timeline : Timeline α}
    (h : Script.compile options text = .ok timeline) (element : Element α) (frame : Nat) :
    element.poseAt timeline.moves frame = element.prescribedPose timeline.moves frame := by
  have horders := (Script.compile_yields options text timeline h).resolved.orders
  rw [Element.poseAt, Element.prescribedPose]
  simp only [channelValue_channelMoves horders]

/-- A script whose second move begins while the first is under way, and a third one that takes no
time, ends first and is declared last. -/
def overlappingScript : String :=
  "frames 30\nelement a arrow.plt translate 10 0\nmove a 0..10 translate 100 0\n" ++
    "move a 5..15 translate 0 100\nmove a 2..2 translate 1 2 scale 2"

theorem prescribedPose_overlappingScript : ∃ timeline : Timeline Rat,
    Script.compile {} overlappingScript = .ok timeline ∧ ∃ element ∈ timeline.elements,
      element.poseAt timeline.moves 8 = element.prescribedPose timeline.moves 8 ∧
        element.prescribedPose timeline.moves 8 = ⟨60, 30, 0, 2, 2⟩ := by
  have hok : (Script.compile {} overlappingScript : Except Error (Timeline Rat)).toOption.any
      (fun timeline => timeline.elements.any fun element =>
        element.prescribedPose timeline.moves 8 = ⟨60, 30, 0, 2, 2⟩) = true := by
    decide +kernel
  cases h : (Script.compile {} overlappingScript : Except Error (Timeline Rat)) with
  | error e =>
    rw [h] at hok
    cases hok
  | ok timeline =>
    rw [h] at hok
    obtain ⟨element, helement, hpose⟩ := List.any_eq_true.mp hok
    exact ⟨timeline, rfl, element, helement, poseAt_eq_prescribed h element 8,
      of_decide_eq_true hpose⟩

end Flipbook
