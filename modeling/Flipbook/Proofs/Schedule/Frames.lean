import Mathlib.Data.List.Perm.Basic
import Mathlib.Data.List.Range
import Flipbook.Proofs.Schedule.Buffer
import Flipbook.Proofs.Schedule.Control

/-!
# Where the frames are

Frames are begun in ascending order. From then on until its turn to be written has come, each frame
is in exactly one place: it is being computed, its result is on its way to the reorder buffer, it
waits in the reorder buffer, or it is lost because its computation failed. So no result is refused
by the buffer, and what comes out of it are the frames in ascending order.

## Main definitions

* `Session.arriving`: the results on their way to the buffer;
* `Session.lost`: the frames whose computation failed;
* `Session.Frames`: the account of frames, as an invariant.

## Main results

* `Session.frames_of_reachable`: the account is kept in every session that can be reached;
* `Session.Frames.ahead`: every result in the buffer is a value whose turn is still to come;
* `Session.Frames.put_isSome`: no result that arrives is refused.
-/

namespace Flipbook

variable {β : Type}

namespace Turn

/-- The result that a turn brings to the buffer, whatever it waits for. -/
@[simp]
def arriving? : Turn β → Option (Nat × Option β)
  | .computed frame (.ok value) => some (frame, value)
  | .wait _ turn => turn.arriving?
  | _ => none

@[simp]
theorem arriving?_after (rounds : Nat) (turn : Turn β) :
    (turn.after rounds).arriving? = turn.arriving? := by
  cases rounds <;> rfl

end Turn

@[simp]
theorem Run.arriving?_headTurn (run : Run β) : run.headTurn.arriving? = none := by
  unfold headTurn
  cases run.chainError <;> rfl

namespace Session

/-- The results on their way to the buffer. -/
def arriving (s : Session β) : List (Nat × Option β) :=
  s.run.queue.filterMap Turn.arriving?

/-- The frames whose computation failed. -/
def lost (s : Session β) : List Nat :=
  (s.computed.filter fun c => !c.2.isOk).map Prod.fst

/-- The account of frames. -/
structure Frames (s : Session β) : Prop where
  /-- Frames are begun in ascending order. -/
  calls : s.computeCalls = List.range s.run.nextFrame
  /-- Each frame that was begun is being computed, or its computation has ended. -/
  begun : (s.computed.map Prod.fst ++ s.computing).Perm (List.range s.run.nextFrame)
  /-- Only frames that were begun have had their turn. -/
  next_le : s.run.buffer.next ≤ s.run.nextFrame
  /-- Each frame that was begun and whose turn has not come is in exactly one place. -/
  account : (s.computing ++ s.arriving.map Prod.fst ++ s.run.buffer.pending.map Prod.fst ++
    s.lost).Perm (List.range' s.run.buffer.next (s.run.nextFrame - s.run.buffer.next))
  /-- The results on their way to the buffer, and those in it, are the values computed. -/
  values : ∀ p ∈ s.arriving ++ s.run.buffer.pending, ∃ v, p.2 = some v ∧ (p.1, .ok v) ∈ s.computed

/-- A frame that is in some place was begun, and its turn has not come. -/
theorem Frames.bounds {s : Session β} (h : Frames s) (frame : Nat)
    (hframe : frame ∈ s.computing ∨ frame ∈ s.arriving.map Prod.fst ∨
      frame ∈ s.run.buffer.pending.map Prod.fst ∨ frame ∈ s.lost) :
    s.run.buffer.next ≤ frame ∧ frame < s.run.nextFrame := by
  have hmem := h.account.mem_iff (a := frame)
  have hle := h.next_le
  rw [List.mem_range'_1] at hmem
  simp only [List.mem_append, or_assoc] at hmem
  have hbounds := hmem.mp hframe
  omega

/-- Every result in the buffer is a value whose turn is still to come. -/
theorem Frames.ahead {s : Session β} (h : Frames s) : s.run.buffer.Ahead := by
  intro p hp
  obtain ⟨v, hv, -⟩ := h.values p (List.mem_append_right _ hp)
  exact ⟨(h.bounds p.1 (.inr (.inr (.inl (List.mem_map_of_mem hp))))).1, by rw [hv]; rfl⟩

/-- No result that arrives is refused. -/
theorem Frames.put_isSome {s : Session β} (h : Frames s) {frame : Nat} {value : Option β}
    (arriving : (frame, value) ∈ s.arriving) : (s.run.buffer.put frame value).isSome := by
  have hframe : frame ∈ s.arriving.map Prod.fst := List.mem_map_of_mem arriving
  rw [ReorderBuffer.put_isSome_iff]
  refine ⟨(h.bounds frame (.inr (.inl hframe))).1, fun hpending => ?_⟩
  have hnodup := h.account.nodup_iff.mpr List.nodup_range'
  rw [List.nodup_append, List.nodup_append] at hnodup
  exact hnodup.1.2.2 frame (List.mem_append_right _ hframe) frame hpending rfl

/-- The account of frames depends on the frames and their results alone. -/
theorem Frames.congr {s t : Session β} (h : Frames s) (calls : t.computeCalls = s.computeCalls)
    (nextFrame : t.run.nextFrame = s.run.nextFrame) (buffer : t.run.buffer = s.run.buffer)
    (computing : t.computing = s.computing) (computed : t.computed = s.computed)
    (arriving : t.arriving.Perm s.arriving) : Frames t where
  calls := by rw [calls, nextFrame, h.calls]
  begun := by rw [computed, computing, nextFrame]; exact h.begun
  next_le := by rw [buffer, nextFrame]; exact h.next_le
  account := by
    rw [lost, computed, computing, buffer, nextFrame]
    exact (((arriving.map Prod.fst).append_left _).append_right _).append_right _ |>.trans h.account
  values := by
    intro p hp
    rw [buffer, (arriving.append_right _).mem_iff] at hp
    rw [computed]
    exact h.values p hp

/-- Whatever a worker that is to begin a frame does keeps the account. -/
theorem Frames.advance {s : Session β} (h : Frames s) {next : Run β} {demands : List (Demand β)}
    (advance : Run.Advance s.run next demands) : Frames (s.follow (next, demands)) := by
  cases advance with
  | done => exact h.congr (by simp) rfl rfl (by simp) rfl (.refl _)
  | cancelled => exact h.congr (by simp) rfl rfl (by simp) rfl (.refl _)
  | next =>
    have hle := h.next_le
    have hlength : s.run.nextFrame + 1 - s.run.buffer.next =
        s.run.nextFrame - s.run.buffer.next + 1 := by omega
    have hlast : s.run.buffer.next + (s.run.nextFrame - s.run.buffer.next) = s.run.nextFrame := by
      omega
    exact
      { calls := by
          have hcalls := h.calls
          simp_all [computeCalls, List.range_succ]
        begun := by
          show (s.computed.map Prod.fst ++ (s.computing ++ [s.run.nextFrame])).Perm
            (List.range (s.run.nextFrame + 1))
          rw [List.range_succ, ← List.append_assoc]
          exact h.begun.append_right _
        next_le := Nat.le_succ_of_le hle
        account := by
          show (s.computing ++ [s.run.nextFrame] ++ s.arriving.map Prod.fst ++
            s.run.buffer.pending.map Prod.fst ++ s.lost).Perm
            (List.range' s.run.buffer.next (s.run.nextFrame + 1 - s.run.buffer.next))
          -- The new number ends the range, and is counted among those being computed.
          rw [hlength, List.range'_1_concat, hlast]
          refine List.perm_iff_count.mpr fun frame => ?_
          have haccount := List.perm_iff_count.mp h.account frame
          simp only [List.count_append] at haccount ⊢
          omega
        values := h.values }

/-- A frame whose computation ends is no longer being computed. -/
theorem count_erase_add {l : List Nat} {frame : Nat} (h : frame ∈ l) (other : Nat) :
    (l.erase frame).count other + [frame].count other = l.count other := by
  rw [(List.perm_cons_erase h).count_eq, ← List.count_append, List.perm_iff_count.mp]
  exact List.perm_append_comm

/-- A computation that ends brings its value to the buffer, if there is one. -/
theorem arriving_endCompute {s : Session β} {frame : Nat} {result : Except Error β}
    {turn : Turn β} (rounds : Nat)
    (arriving : turn.arriving? = result.toOption.map fun v => (frame, some v)) :
    (s.endCompute frame result (turn.after rounds)).arriving =
      s.arriving ++ (result.toOption.map fun v => (frame, some v)).toList := by
  rw [← arriving]
  cases h : turn.arriving? <;> simp [Session.arriving, h]

/-- A computation that ends keeps the account. -/
theorem Frames.endCompute {s : Session β} (h : Frames s) {frame : Nat}
    (computing : frame ∈ s.computing) {result : Except Error β} {turn : Turn β} (rounds : Nat)
    (arriving : turn.arriving? = result.toOption.map fun v => (frame, some v)) :
    Frames (s.endCompute frame result (turn.after rounds)) where
  calls := h.calls
  begun := by
    show ((s.computed ++ [(frame, result)]).map Prod.fst ++ s.computing.erase frame).Perm _
    refine List.Perm.trans (List.perm_iff_count.mpr fun other => ?_) h.begun
    have hcount := count_erase_add computing other
    simp only [List.map_append, List.map_cons, List.map_nil, List.count_append]
    omega
  next_le := h.next_le
  account := by
    rw [arriving_endCompute rounds arriving]
    refine List.Perm.trans (List.perm_iff_count.mpr fun other => ?_) h.account
    have hcount := count_erase_add computing other
    -- The frame goes to the results on their way, or to those that are lost.
    cases result with
    | ok v =>
      have hlost : (s.endCompute frame (.ok v) (turn.after rounds)).lost = s.lost := by
        simp [lost, Except.isOk, Except.toBool]
      simp only [hlost, List.count_append, List.map_append, endCompute_computing, endCompute_run,
        Run.post, Except.toOption, Option.map_some, Option.toList_some, List.map_cons, List.map_nil]
      omega
    | error e =>
      have hlost : (s.endCompute frame (.error e) (turn.after rounds)).lost = s.lost ++ [frame] := by
        simp [lost, Except.isOk, Except.toBool]
      simp only [hlost, List.count_append, List.map_append, endCompute_computing, endCompute_run,
        Run.post, Except.toOption, Option.map_none, Option.toList_none, List.map_nil,
        List.count_nil]
      omega
  values := by
    intro p hp
    rw [arriving_endCompute rounds arriving, List.append_assoc, List.mem_append, List.mem_append,
      or_left_comm, ← List.mem_append] at hp
    rcases hp with hp | hp
    · cases result with
      | ok v =>
        have hp : p = (frame, some v) := by simpa [Except.toOption] using hp
        exact ⟨v, by rw [hp], by simp [hp]⟩
      | error e => simp [Except.toOption] at hp
    · obtain ⟨v, hv, hmem⟩ := h.values p hp
      exact ⟨v, hv, List.mem_append_left _ hmem⟩

/-- The numbers of a range that are not below a number in it. -/
theorem filter_range' {first next last : Nat} (hnext : first ≤ next) (hlast : next ≤ last) :
    (List.range' first (last - first)).filter (fun n => decide (next ≤ n)) =
      List.range' next (last - next) := by
  have hsplit : List.range' first (last - first) =
      List.range' first (next - first) ++ List.range' next (last - next) := by
    have happend := List.range'_append_1 (s := first) (m := next - first) (n := last - next)
    rw [show first + (next - first) = next by omega,
      show next - first + (last - next) = last - first by omega] at happend
    exact happend.symm
  rw [hsplit, List.filter_append, List.filter_eq_nil_iff.mpr, List.filter_eq_self.mpr]
  · rfl
  · intro n hn
    rw [List.mem_range'_1] at hn
    simpa using hn.1
  · intro n hn
    rw [List.mem_range'_1] at hn
    simp
    omega

/-- A frame that comes out of the buffer when a flush begins waits in it, and nowhere else. -/
theorem Frames.ready_lt {s : Session β} (h : Frames s) (frame : Nat)
    (first : s.run.buffer.next ≤ frame) (ready : frame < s.run.buffer.takeReady.2.next) :
    frame < s.run.nextFrame ∧ frame ∉ s.computing ∧ frame ∉ s.arriving.map Prod.fst ∧
      frame ∉ s.lost := by
  have htaken := ReorderBuffer.takeReady_taken h.ahead
  have hmem : frame ∈ s.run.buffer.takeReady.1.map Prod.fst := by
    rw [htaken.indexes, List.mem_range'_1]
    omega
  obtain ⟨p, hp, rfl⟩ := List.mem_map.mp hmem
  have hpending : p.1 ∈ s.run.buffer.pending.map Prod.fst :=
    List.mem_map.mpr ⟨_, htaken.values p hp, rfl⟩
  refine ⟨(h.bounds p.1 (.inr (.inr (.inl hpending)))).2, ?_⟩
  have hnodup := h.account.nodup_iff.mpr List.nodup_range'
  rw [List.nodup_append, List.nodup_append] at hnodup
  obtain ⟨⟨-, -, hwaits⟩, -, hlost⟩ := hnodup
  exact ⟨fun hm => hwaits _ (List.mem_append_left _ hm) _ hpending rfl,
    fun hm => hwaits _ (List.mem_append_right _ hm) _ hpending rfl,
    fun hm => hlost _ (List.mem_append_right _ hpending) _ hm rfl⟩

/-- A flush that begins takes a run of frames from the buffer, and keeps the account. -/
theorem Frames.flush {s : Session β} (h : Frames s) :
    Frames { s with run := { s.run with buffer := s.run.buffer.takeReady.2 } } := by
  have htaken := ReorderBuffer.takeReady_taken h.ahead
  have hready := h.ready_lt
  generalize s.run.buffer.takeReady.2 = rest at htaken hready ⊢
  have hlast : rest.next ≤ s.run.nextFrame := by
    by_contra hlt
    have hframe := hready s.run.nextFrame h.next_le (by omega)
    omega
  have hpending : rest.pending.map Prod.fst =
      (s.run.buffer.pending.map Prod.fst).filter fun n => decide (rest.next ≤ n) := by
    rw [htaken.kept, List.filter_map]
    rfl
  -- Wherever else a frame is, it does not come out of the buffer.
  have hstays {l : List Nat} (hl : ∀ frame ∈ l, (frame ∈ s.computing ∨
      frame ∈ s.arriving.map Prod.fst ∨ frame ∈ s.lost)) :
      l.filter (fun n => decide (rest.next ≤ n)) = l := by
    refine List.filter_eq_self.mpr fun frame hframe => decide_eq_true ?_
    have hbounds := h.bounds frame
    have hwaits := hready frame
    by_contra hlt
    rcases hl frame hframe with hmem | hmem | hmem <;> simp_all
  exact
    { calls := h.calls
      begun := h.begun
      next_le := hlast
      account := by
        have haccount := h.account.filter fun n => decide (rest.next ≤ n)
        rw [filter_range' htaken.next_le hlast, List.filter_append, List.filter_append,
          List.filter_append, ← hpending, hstays fun _ => .inl, hstays fun _ hm => .inr (.inl hm),
          hstays fun _ hm => .inr (.inr hm)] at haccount
        exact haccount
      values := by
        intro p hp
        rw [htaken.kept, List.mem_append] at hp
        exact h.values p (List.mem_append.mpr (hp.imp_right List.mem_of_mem_filter)) }

/-- A result that is put into the buffer keeps the account. -/
theorem Frames.arrive {s t : Session β} (h : Frames s) {frame : Nat} {value : Option β}
    (calls : t.computeCalls = s.computeCalls) (nextFrame : t.run.nextFrame = s.run.nextFrame)
    (buffer : t.run.buffer =
      { s.run.buffer with pending := s.run.buffer.pending ++ [(frame, value)] })
    (computing : t.computing = s.computing) (computed : t.computed = s.computed)
    (arriving : ((frame, value) :: t.arriving).Perm s.arriving) : Frames t where
  calls := by rw [calls, nextFrame, h.calls]
  begun := by rw [computed, computing, nextFrame]; exact h.begun
  next_le := by rw [buffer, nextFrame]; exact h.next_le
  account := by
    rw [lost, computed, computing, buffer, nextFrame]
    refine List.Perm.trans (List.perm_iff_count.mpr fun other => ?_) h.account
    have hcount := (arriving.map Prod.fst).count_eq other
    rw [← List.singleton_append, List.map_append, List.count_append] at hcount
    simp only [List.map_append, List.count_append, lost] at hcount ⊢
    omega
  values := by
    intro p hp
    rw [computed]
    refine h.values p ?_
    rw [buffer] at hp
    rw [List.mem_append, ← arriving.mem_iff]
    simp only [List.mem_append, List.mem_cons, List.not_mem_nil, or_false] at hp ⊢
    tauto

/-- Whatever a turn leads to keeps the account. -/
theorem Frames.turn {s : Session β} (h : Frames s) {before after : List (Turn β)} {turn : Turn β}
    (queue : s.run.queue = before ++ turn :: after) {next : Run β} {demands : List (Demand β)}
    (effect : Run.Effect { s.run with queue := before ++ after } turn next demands) :
    Frames ((s.note turn).follow (next, demands)) := by
  cases effect with
  | @arrived frame value buffer hput =>
    have hnext := ReorderBuffer.eq_of_put_eq_some hput
    refine h.arrive (by simp) rfl hnext (by simp) rfl
      (cons_filterMap_perm _ queue rfl rfl ?_)
    by_cases hc : s.run.chain = 0 <;> simp [hc, Run.arriving?_headTurn]
  | @refused frame value hput =>
    -- The buffer takes every result that is on its way.
    have hturn : Turn.computed frame (.ok value) ∈ s.run.queue := by simp [queue]
    have hmem : (frame, value) ∈ s.arriving := List.mem_filterMap.mpr ⟨_, hturn, rfl⟩
    have hsome := h.put_isSome hmem
    rw [hput] at hsome
    cases hsome
  | @waited rounds turn =>
    refine h.congr (by simp) rfl rfl (by simp) rfl (filterMap_perm _ queue rfl ?_)
    cases harriving : turn.arriving? <;> simp [harriving]
  | uncomputed | unflushed =>
    exact h.congr (by simp) rfl rfl (by simp) rfl (filterMap_perm _ queue rfl (by simp))
  | advance ha =>
    have hleft : Frames { s.note (.flushed (.ok ())) with
        run := { s.run with queue := before ++ after } } :=
      h.congr rfl rfl rfl rfl rfl (filterMap_perm _ queue (List.append_nil _).symm (by simp))
    exact hleft.advance ha
  | flushedNothing | flushedFirst =>
    exact h.flush.congr (by simp [computeCalls]) rfl rfl (by simp) rfl
      (filterMap_perm _ queue rfl (by simp))
  | failed | unclaimed | wroteNext =>
    exact h.congr (by simp) rfl rfl (by simp) rfl
      (filterMap_perm _ queue (List.append_nil _).symm (by simp))
  | passed | left | leftFailing =>
    refine h.congr (by simp) rfl rfl (by simp) rfl (filterMap_perm _ queue rfl ?_)
    by_cases hlast : 1 < s.run.chain <;> simp [hlast]
  | unreported | wroteLast | unwritten =>
    refine h.congr (by simp) rfl rfl (by simp) rfl (filterMap_perm _ queue rfl ?_)
    cases s.run.current.adopted <;> simp
  | adopted =>
    refine h.congr (by simp) rfl rfl (by simp) rfl (filterMap_perm _ queue rfl ?_)
    cases s.run.current.ended <;> simp

/-- Everything that can happen keeps the account. -/
theorem Frames.step {s t : Session β} (h : Frames s) (step : Step s t) : Frames t := by
  cases step with
  | @begin n idle =>
    have hidle : Frames { s with idle := n } := h.congr rfl rfl rfl rfl rfl (.refl _)
    exact hidle.advance s.run.advance_cases
  | turn idle queue => exact h.turn queue (Run.take_cases _ _)
  | computed value rounds computing => exact h.endCompute computing rounds rfl
  | computeFailed e rounds computing => exact h.endCompute computing rounds rfl
  | computeRaised e rounds computing => exact h.endCompute computing rounds rfl
  | wrote result rounds writing =>
    exact h.congr rfl rfl rfl rfl rfl (by simp [Session.arriving])
  | abort => exact h.congr rfl rfl rfl rfl rfl (.refl _)

/-- The account of frames is kept in every session that can be reached. -/
theorem frames_of_reachable {total : Option Nat} {workers : Nat} {aborted : Bool}
    {reportFault : Nat → Option Error} {s : Session β}
    (h : Reachable (Run.fresh total workers aborted reportFault) s) : Frames s := by
  induction h with
  | refl =>
    exact
      { calls := rfl
        begun := .refl _
        next_le := Nat.le_refl _
        account := .refl _
        values := nofun }
  | tail _ hstep ih => exact ih.step hstep

end Session

end Flipbook
