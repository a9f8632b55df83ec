import Mathlib.Data.List.Nodup
import Flipbook.Proofs.Number.Natural
import Flipbook.Proofs.Schedule.Effort
import Flipbook.Proofs.Schedule.Failure
import Flipbook.Proofs.Schedule.Order

/-!
# How a run ends

When nothing is being computed or written any more and no turn is left, the run has settled: all its
workers are done. Unless something failed, or the run noticed that it was asked to stop, all frames
that are due are written then. Otherwise it is the first failure that tells how the run ended, or
else the frame before which it was stopped.

A total that is a natural number is the number of frames that are due. Other totals are not: two
frames and a half are three frames, half a frame is none since it gets no worker, and there is no
end of them below infinity.

## Main definitions

* `Run.due`, `Run.dueCount`: the number of frames that a run comes to if nothing stops it;
* `Session.Underway`: nothing that is left to be done is forgotten, as an invariant;
* `Session.Ending`: how a run ended, told from what has happened.

## Main results

* `Session.underway_of_reachable`: nothing is forgotten in any session that can be reached;
* `Session.ending_of_reachable`: every run settles, with the right outcome, and nothing is begun
  after it was stopped.
-/

namespace Flipbook

variable {β : Type}

namespace Run

/-- The number of frames that a run comes to if nothing stops it. Without a worker it comes to none;
there may be no end of them. -/
def due (total : Option Nat) (workers : Nat) : Option Nat :=
  if workers = 0 then some 0 else total

/-- The number of frames that are due for any total. -/
def dueCount : Binary64 → Option Nat
  | .finite q => some (if q < 1 then 0 else q.ceil.toNat)
  | .infinite false => none
  | .infinite true | .nan => some 0

/-- However many workers there may be, the number of frames that are due is the same. -/
theorem due_workerCount {count : Nat} (h : 0 < count) (total : Binary64) :
    due (frameCount total) (workerCount count total) = dueCount total := by
  rw [due]
  cases total with
  | finite q =>
    have hbelow : q.floor < 1 ↔ q < 1 := Rat.floor_lt_iff
    have hworkers : min count q.floor.toNat = 0 ↔ q < 1 := by
      rw [← hbelow]
      omega
    simp only [workerCount, frameCount, dueCount, hworkers]
    split_ifs <;> rfl
  | infinite negative => cases negative <;> simp [workerCount, frameCount, dueCount, h.ne']
  | nan => rfl

theorem due_min {count : Nat} (h : 0 < count) (total : Nat) :
    due (some total) (min count total) = some total := by
  rw [due]
  split_ifs with hnone
  · rw [show total = 0 by omega]
  · rfl

/-- So many frames are due if there are so many. -/
theorem dueCount_of_toNat? {total : Binary64} {n : Nat} (h : total.toNat? = some n) :
    dueCount total = some n := by
  rw [Binary64.eq_finite_of_toNat? h, dueCount]
  split_ifs with hsmall
  · have hone : n < 1 := by exact_mod_cast hsmall
    rw [Nat.lt_one_iff.mp hone]
  · rw [← Rat.intCast_natCast, Rat.ceil_intCast, Int.toNat_natCast]

end Run

/-- What fails a frame is told as the failure of this frame, unless it tells a frame already or has
no text. -/
theorem Error.ofFrame_eq {e : Error} (hframe : ∀ frame cause, e ≠ .frameFailed frame cause)
    (htext : ∀ instead, e ≠ .textless instead) (frame : Nat) :
    ofFrame frame e = .frameFailed frame e := by
  rw [ofFrame, describe]
  · exact htext
  · exact hframe

namespace Session

/-- Nothing that is left to be done is forgotten. -/
structure Underway (workers : Nat) (s : Session β) : Prop where
  /-- A worker is done only if the run is stopped, or all frames were begun. -/
  begun : s.run.workers = workers ∨ s.run.stopped ∨ ∃ n, s.run.total = some n ∧ n ≤ s.run.nextFrame
  /-- No frame beyond the last one is begun. -/
  bounded : ∀ n, s.run.total = some n → s.run.nextFrame ≤ n
  /-- If the result whose turn it is has arrived, a flush will take it, unless the chain failed. -/
  wakes : s.run.buffer.has s.run.buffer.next = true →
    s.run.chainError ≠ none ∨ 0 < s.count .flush ∨ 2 ≤ s.run.chain

/-- What is left to be done depends on the workers, the frames begun, the buffer and the chain. -/
theorem Underway.congr {workers : Nat} {s t : Session β} (h : Underway workers s)
    (stays : t.run.workers = s.run.workers) (total : t.run.total = s.run.total)
    (nextFrame : t.run.nextFrame = s.run.nextFrame) (stopped : s.run.stopped → t.run.stopped)
    (buffer : t.run.buffer = s.run.buffer) (chainError : t.run.chainError = s.run.chainError)
    (chain : t.run.chain = s.run.chain) (flush : s.count .flush ≤ t.count .flush) :
    Underway workers t where
  begun := by
    rw [stays, total, nextFrame]
    exact h.begun.imp_right (Or.imp_left stopped)
  bounded := by
    rw [total, nextFrame]
    exact h.bounded
  wakes := fun hnext => by
    rw [buffer] at hnext
    rw [chainError, chain]
    exact (h.wakes hnext).imp_right (Or.imp_left fun hf => Nat.lt_of_lt_of_le hf flush)

/-- A worker that is to begin a frame forgets nothing. -/
theorem Underway.advance {workers : Nat} {s : Session β} (h : Underway workers s) {next : Run β}
    {demands : List (Demand β)} (advance : Run.Advance s.run next demands) :
    Underway workers (s.follow (next, demands)) := by
  cases advance with
  | done hdone =>
    refine ⟨.inr ?_, h.bounded, h.wakes⟩
    exact hdone
  | cancelled => exact ⟨.inr (.inl rfl), h.bounded, h.wakes⟩
  | next running left asked =>
    refine ⟨?_, left, h.wakes⟩
    refine h.begun.imp_right (Or.imp_right ?_)
    rintro ⟨n, hn, hle⟩
    exact ⟨n, hn, Nat.le_succ_of_le hle⟩

/-- No turn forgets anything. -/
theorem Underway.turn {workers : Nat} {s : Session β} (h : Underway workers s) (front : Front s)
    (frames : Frames s) {before after : List (Turn β)} {turn : Turn β}
    (queue : s.run.queue = before ++ turn :: after) {next : Run β} {demands : List (Demand β)}
    (effect : Run.Effect { s.run with queue := before ++ after } turn next demands) :
    Underway workers ((s.note turn).follow (next, demands)) := by
  have hpos := count_pos queue
  have hstuck := (ReorderBuffer.takeReady_taken frames.ahead).stuck
  cases effect with
  | arrived hput =>
    -- The flush that comes with the result begins now, or waits behind another one.
    refine ⟨h.begun, h.bounded, fun _ => ?_⟩
    rcases Nat.eq_zero_or_pos s.run.chain with hzero | hc
    · by_cases hbroken : s.run.chainError = none
      · have hflush : Turn.flush ∈ before ++ after ++ if s.run.chain = 0 then
            [Run.headTurn { s.run with queue := before ++ after }] else [] := by
          simp [hzero, Run.headTurn, hbroken]
        exact .inr (.inl (count_pos_of_mem hflush rfl))
      · exact .inl hbroken
    · exact .inr (.inr (Nat.succ_le_succ hc))
  | flushedNothing | flushedFirst =>
    -- A flush leaves no result behind whose turn it is.
    refine ⟨h.begun, h.bounded, fun hnext => ?_⟩
    exact absurd (hstuck.symm.trans hnext) nofun
  | failed =>
    refine ⟨.inr (.inl rfl), h.bounded, fun hnext => ?_⟩
    refine (h.wakes hnext).imp_right (Or.imp_left fun hf => Nat.lt_of_lt_of_le hf ?_)
    exact count_le queue (List.append_nil _).symm (by simp)
  | passed | leftFailing => exact ⟨h.begun, h.bounded, fun _ => .inl nofun⟩
  | left =>
    obtain ⟨-, htokens, -, -, -, hfirst⟩ := front.of_leave hpos
    refine ⟨h.begun, h.bounded, fun hnext => .inr (.inl ?_)⟩
    rcases h.wakes hnext with hbroken | hflush | hchain
    · exact absurd hfirst hbroken
    · rw [htokens.flush] at hflush
      omega
    -- The flush behind the one that leaves begins.
    · have hlast : 1 < s.run.chain := hchain
      have hflush : Turn.flush ∈ before ++ after ++ Turn.flushed (.ok ()) ::
          if 1 < s.run.chain then [.flush] else [] := by
        simp [hlast]
      exact count_pos_of_mem hflush rfl
  | advance ha =>
    have hleft : Underway workers { s.note (.flushed (.ok ())) with
        run := { s.run with queue := before ++ after } } :=
      h.congr rfl rfl rfl id rfl rfl rfl (count_le queue (List.append_nil _).symm (by simp))
    exact hleft.advance ha
  | refused | uncomputed | unflushed | unreported | wroteLast | unwritten | adopted =>
    exact h.congr rfl rfl rfl id rfl rfl rfl (count_le queue rfl (by simp))
  | @waited rounds turn =>
    refine h.congr rfl rfl rfl id rfl rfl rfl (count_le queue rfl ?_)
    cases hkind : turn.kind <;> simp [hkind]
  | unclaimed | wroteNext =>
    exact h.congr rfl rfl rfl id rfl rfl rfl (count_le queue (List.append_nil _).symm (by simp))

/-- Whatever happens, nothing is forgotten. -/
theorem Underway.step {workers : Nat} {s t : Session β} (h : Underway workers s) (front : Front s)
    (frames : Frames s) (step : Step s t) : Underway workers t := by
  cases step with
  | @begin n idle =>
    have hidle : Underway workers { s with idle := n } := ⟨h.begun, h.bounded, h.wakes⟩
    exact hidle.advance s.run.advance_cases
  | turn idle queue => exact h.turn front frames queue (Run.take_cases _ _)
  | computed | computeFailed | computeRaised | wrote =>
    refine h.congr rfl rfl rfl id rfl rfl rfl ?_
    simp [count]
  | abort => exact ⟨h.begun, h.bounded, h.wakes⟩

/-- Nothing is forgotten in any session that can be reached. -/
theorem underway_of_reachable {total : Option Nat} {workers : Nat} {aborted : Bool}
    {reportFault : Nat → Option Error} {s : Session β}
    (h : Reachable (Run.fresh total workers aborted reportFault) s) : Underway workers s := by
  induction h with
  | refl => exact ⟨.inl rfl, fun n _ => Nat.zero_le n, nofun⟩
  | tail hreach hstep ih =>
    exact ih.step (control_of_reachable hreach).front (frames_of_reachable hreach) hstep

/-- A frame whose computation or write failed was not written. -/
theorem not_mem_successes {s : Session β} (frames : Frames s) (writing : Writing s) {frame : Nat}
    {e : Error} (cause : (frame, .error e) ∈ s.computed ∨ (frame, .error e) ∈ s.wrote) :
    frame ∉ s.successes := by
  intro hmem
  obtain ⟨⟨f, result⟩, hw, rfl⟩ := List.mem_map.mp hmem
  obtain ⟨hwrote, hok⟩ := List.mem_filter.mp hw
  have hnodup : (s.wrote.map Prod.fst ++ s.writing).Nodup := by
    rw [writing.wrote_append.1]
    exact List.nodup_range
  rcases cause with hcause | hcause
  -- What was written was computed, and nothing is computed twice.
  · have hcalls : f ∈ s.writeCalls.map Prod.fst := by
      rw [writing.calls, ← writing.wrote_append.1]
      exact List.mem_append_left _ (List.mem_map_of_mem hwrote)
    obtain ⟨p, hp, rfl⟩ := List.mem_map.mp hcalls
    have hcomputed := writing.values p (List.mem_append_left _ hp)
    have honce : (s.computed.map Prod.fst).Nodup :=
      (frames.begun.nodup_iff.mpr List.nodup_range).of_append_left
    have hsame := List.inj_on_of_nodup_map honce hcause hcomputed rfl
    cases hsame
  · have hsame := List.inj_on_of_nodup_map hnodup.of_append_left hcause hwrote rfl
    cases hsame
    cases hok

/-- At rest, if no computation failed, every frame that was begun has left the buffer or waits in it,
so that the next one to leave it is there. -/
theorem AtRest.has_next {s : Session β} (rest : AtRest s) (frames : Frames s)
    (sound : ∀ (e : Error) (frame : Nat), (frame, .error e) ∉ s.computed)
    (hlt : s.run.buffer.next < s.run.nextFrame) :
    s.run.buffer.has s.run.buffer.next = true := by
  have hlost : s.lost = [] := by
    rw [lost, List.map_eq_nil_iff, List.filter_eq_nil_iff]
    rintro ⟨frame, result⟩ hmem hfailed
    cases result with
    | ok v => cases hfailed
    | error e => exact sound e frame hmem
  -- Of the places where a frame can be, only the buffer is left.
  have hmem : s.run.buffer.next ∈ s.run.buffer.pending.map Prod.fst := by
    have haccount := frames.account.mem_iff (a := s.run.buffer.next)
    rw [rest.computing, arriving, rest.queue, hlost, List.mem_range'_1] at haccount
    simp only [List.filterMap_nil, List.map_nil, List.nil_append, List.append_nil] at haccount
    exact haccount.mpr (by omega)
  obtain ⟨p, hp, heq⟩ := List.mem_map.mp hmem
  exact List.any_eq_true.mpr ⟨p, hp, decide_eq_true heq⟩

/-- Without workers nothing is ever begun. -/
theorem atRest_of_no_workers {total : Option Nat} {aborted : Bool}
    {reportFault : Nat → Option Error} {s : Session β}
    (h : Reachable (Run.fresh total 0 aborted reportFault) s) : AtRest s ∧ s.run.written = 0 := by
  induction h with
  | refl => exact ⟨⟨rfl, rfl, rfl, rfl⟩, rfl⟩
  | tail _ step ih =>
    obtain ⟨rest, hwritten⟩ := ih
    rw [rest.eq_abort_of_step step]
    exact ⟨⟨rest.idle, rest.computing, rest.writing, rest.queue⟩, hwritten⟩

/-- At rest, if nothing failed and no abort was noticed, all frames that are due are written. -/
theorem AtRest.written_eq {total : Option Nat} {workers : Nat} {aborted : Bool}
    {reportFault : Nat → Option Error} {s : Session β} (rest : AtRest s)
    (h : Reachable (Run.fresh total workers aborted reportFault) s) (sound : ∀ e, ¬ Cause s e)
    (running : s.run.stopped = false) : Run.due total workers = some s.run.written := by
  rw [Run.due]
  split_ifs with hzero
  · subst hzero
    rw [(atRest_of_no_workers h).2]
  have control := control_of_reachable h
  have frames := frames_of_reachable h
  have writing := writing_of_reachable h
  have blame := blame_of_reachable h
  have underway := underway_of_reachable h
  obtain ⟨hchain, hworkers⟩ := rest.done control
  obtain ⟨-, -, hquiet, -⟩ := control.front.of_chain_eq_zero hchain
  have hfirst : s.run.chainError = none :=
    Option.eq_none_iff_forall_ne_some.mpr fun e he => sound e (blame.chainError e he)
  have hunbroken : s.Unbroken := ⟨hfirst, fun e he => sound e (blame.ended e he)⟩
  obtain ⟨-, hwritten, -⟩ := writing.of_unbroken hquiet hunbroken
  -- The workers are done, and nothing stopped them, so all frames were begun.
  obtain ⟨n, hn, hge⟩ : ∃ n, s.run.total = some n ∧ n ≤ s.run.nextFrame := by
    rcases underway.begun with hall | hstopped | hbegun
    · exact absurd (hall.symm.trans hworkers) hzero
    · simp [running] at hstopped
    · exact hbegun
  have hbegun : s.run.nextFrame = n := Nat.le_antisymm (underway.bounded n hn) hge
  have hnext : s.run.buffer.next = s.run.nextFrame := by
    by_contra hne
    have hle := frames.next_le
    have hhas := rest.has_next frames (fun e frame h => sound _ (.computed h)) (by omega)
    -- The flush that would take it is nowhere.
    rcases underway.wakes hhas with hbroken | hflush | hwaits
    · exact hbroken hfirst
    · simp [count, rest.queue] at hflush
    · omega
  have hrunning := hwritten.resolve_right (by simp [running])
  rw [← show s.run.total = total from (keeps_of_steps h).total, hn]
  congr 1
  omega

/-- How a run has ended that came to so many frames if nothing stopped it, told from what has
happened. -/
inductive Ending (due : Option Nat) (s : Session β) : Except Error Nat → Prop where
  /-- Nothing failed, and no abort was noticed: all frames that are due are written. -/
  | complete {total : Nat} (sound : ∀ e, ¬ Cause s e) (unnoticed : s.run.cancelled = false)
      (all : due = some total) (written : s.successes = List.range total) :
      Ending due s (.ok total)
  /-- The first failure that was noted is that of a frame which could not be computed or written. -/
  | failed {frame : Nat} {e : Error} {failures : List Error}
      (first : s.failures = .ofFrame frame e :: failures)
      (cause : (frame, .error e) ∈ s.computed ∨ (frame, .error e) ∈ s.wrote)
      (unwritten : frame ∉ s.successes) : Ending due s (.error (.ofFrame frame e))
  /-- The first failure that was noted is that of a report. -/
  | unreported {frame : Nat} {e : Error} {failures : List Error} (first : s.failures = e :: failures)
      (cause : s.run.reportFault frame = some e) (reported : frame ∈ s.reportCalls) :
      Ending due s (.error e)
  /-- Nothing failed, but the run was asked to stop, and this was noticed. -/
  | cancelled (sound : ∀ e, ¬ Cause s e) (asked : s.run.aborted = true)
      (noticed : s.run.cancelled = true) : Ending due s (.error (.cancelled s.successes.length))

/-- At rest a run has settled, with the outcome that what has happened leads to. -/
theorem AtRest.ending {total : Option Nat} {workers : Nat} {aborted : Bool}
    {reportFault : Nat → Option Error} {s : Session β} (rest : AtRest s)
    (h : Reachable (Run.fresh total workers aborted reportFault) s) :
    ∃ result, s.run.outcome = some result ∧ Ending (Run.due total workers) s result := by
  have control := control_of_reachable h
  have writing := writing_of_reachable h
  have noted := noted_of_reachable h
  have hsuccesses : s.successes = List.range s.run.written := by
    rw [← writing.reports]
    refine writing.successes_eq.resolve_right ?_
    rintro ⟨frame, -, hanswer⟩
    simp [answers, rest.queue] at hanswer
  refine ⟨_, by rw [Run.outcome, if_pos (rest.done control).2], ?_⟩
  rw [noted.failure]
  -- The outcome is read off the first failure, then off the abort.
  cases hfailures : s.failures with
  | cons e failures =>
    have hmem : e ∈ s.failures := by simp [hfailures]
    cases (blame_of_reachable h).failures e hmem with
    | computed hcause =>
      exact .failed hfailures (.inl hcause)
        (not_mem_successes (frames_of_reachable h) writing (.inl hcause))
    | wrote hcause =>
      exact .failed hfailures (.inr hcause)
        (not_mem_successes (frames_of_reachable h) writing (.inr hcause))
    | reported hcause fault => exact .unreported hfailures fault hcause
  | nil =>
    have hsound : ∀ e, ¬ Cause s e := fun e he =>
      rest.failures_ne_nil control (alarm_of_cause h he) hfailures
    cases hcancelled : s.run.cancelled with
    | true =>
      have hlength := congrArg List.length hsuccesses
      rw [List.length_range] at hlength
      have hending : Ending (Run.due total workers) s _ :=
        .cancelled hsound (noted.aborted hcancelled) hcancelled
      rwa [hlength] at hending
    | false =>
      have hrunning : s.run.stopped = false := by
        have hstopped := noted.stopped
        simpa [hfailures, hcancelled] using hstopped
      exact .complete hsound hcancelled (rest.written_eq h hsound hrunning) hsuccesses

/-- A concurrency that is accepted is positive. -/
theorem concurrency_pos {concurrency : Binary64} {count : Nat}
    (h : Run.concurrency? concurrency = .ok count) : 0 < count := by
  unfold Run.concurrency? at h
  split at h
  next n hn =>
    obtain rfl : n = count := Except.ok.inj h
    rw [Option.filter_eq_some_iff] at hn
    simpa using hn.2
  next => cases h

end Session

end Flipbook
