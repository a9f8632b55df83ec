import Flipbook.Proofs.Schedule.Stopping
import Flipbook.Proofs.Schedule.Writing

/-!
# Failures and their causes

A failure of a run is a computation that failed, a write that failed, or a report that failed. On
its way from where it occurs to where it is noted a failure passes through turns, through the flush
under way and through the chain; it is never lost on the way, and none comes from anywhere else.

## Main definitions

* `Session.Cause`: where an error comes from;
* `Session.Blame`: whatever carries an error carries one with a cause, as an invariant;
* `Session.Alarm`: a failure is noted, or on its way to be noted.

## Main results

* `Session.blame_of_reachable`: every failure has a cause;
* `Session.alarm_of_cause`: every cause leads to a failure.
-/

namespace Flipbook

variable {β : Type}

namespace Turn

/-- The error that a turn carries to be noted, whatever it waits for. -/
@[simp]
def error? : Turn β → Option Error
  | .computed frame (.error e) => some (.ofFrame frame e)
  | .flushed (.error e) => some e
  | .failed e => some e
  | .pass e => some e
  | .wait _ turn => turn.error?
  | _ => none

@[simp]
theorem error?_after (rounds : Nat) (turn : Turn β) : (turn.after rounds).error? = turn.error? := by
  cases rounds <;> rfl

end Turn

namespace Run

@[simp]
theorem error?_headTurn (run : Run β) : run.headTurn.error? = run.chainError := by
  unfold headTurn
  cases run.chainError <;> rfl

/-- An error that the turns of the queue carry after a turn was carried by one before, by the chain
or by the flush under way, if the turn brought no result that is refused. -/
theorem Effect.error_posted {run next : Run β} {turn : Turn β} {demands : List (Demand β)}
    (effect : Effect run turn next demands)
    (accepted : ∀ frame value, turn = .computed frame (.ok value) →
      run.buffer.put frame value ≠ none) :
    ∃ posted, next.queue = run.queue ++ posted ∧ ∀ p ∈ posted, ∀ e, p.error? = some e →
      turn.error? = some e ∨ run.chainError = some e ∨ run.current.ended = some (.error e) := by
  cases effect with
  | arrived hput =>
    -- The turn of the new head of the chain repeats the error of the chain.
    refine ⟨_, rfl, fun p hp e he => .inr (.inl ?_)⟩
    obtain ⟨-, rfl⟩ : run.chain = 0 ∧ p = run.headTurn := by simpa using hp
    rwa [error?_headTurn] at he
  | @refused frame value hput => exact absurd hput (accepted frame value rfl)
  | uncomputed | unflushed =>
    refine ⟨_, rfl, fun p hp e he => .inl ?_⟩
    obtain rfl := List.mem_singleton.mp hp
    exact he
  | waited =>
    refine ⟨_, rfl, fun p hp e he => .inl ?_⟩
    obtain rfl := List.mem_singleton.mp hp
    simpa using he
  | failed | unclaimed | wroteNext =>
    exact ⟨[], (List.append_nil _).symm, List.forall_mem_nil _⟩
  | advance ha => exact ⟨[], by rw [ha.frame.1, List.append_nil], List.forall_mem_nil _⟩
  | flushedNothing | flushedFirst =>
    refine ⟨_, rfl, fun p hp e he => ?_⟩
    obtain rfl := List.mem_singleton.mp hp
    cases he
  | wroteLast | unreported | unwritten =>
    refine ⟨_, rfl, fun p hp e he => ?_⟩
    obtain ⟨-, rfl⟩ : run.current.adopted ∧ p = .leave := by simpa using hp
    cases he
  | adopted =>
    refine ⟨_, rfl, fun p hp e he => ?_⟩
    obtain ⟨-, rfl⟩ : run.current.ended.isSome ∧ p = .leave := by simpa using hp
    cases he
  | @passed e =>
    refine ⟨_, rfl, fun p hp e' he => .inl ?_⟩
    obtain rfl | ⟨-, rfl⟩ : p = .flushed (.error e) ∨ 1 < run.chain ∧ p = .pass e := by
      simpa using hp
    · exact he
    · exact he
  | left =>
    refine ⟨_, rfl, fun p hp e he => ?_⟩
    obtain rfl | ⟨-, rfl⟩ : p = .flushed (.ok ()) ∨ 1 < run.chain ∧ p = .flush := by
      simpa using hp
    · cases he
    · cases he
  | @leftFailing e hended =>
    -- The error of the flush under way goes to its worker and to the rest of the chain.
    refine ⟨_, rfl, fun p hp e' he => .inr (.inr ?_)⟩
    obtain rfl | ⟨-, rfl⟩ : p = .flushed (.error e) ∨ 1 < run.chain ∧ p = .pass e := by
      simpa using hp
    · rwa [← Option.some.inj he]
    · rwa [← Option.some.inj he]

/-- The chain fails with the error of a flush, which is passed on or leaves the chain. -/
theorem Effect.chainError_cases {run next : Run β} {turn : Turn β} {demands : List (Demand β)}
    (effect : Effect run turn next demands) {e : Error} (h : next.chainError = some e) :
    turn.error? = some e ∨ run.chainError = some e ∨ run.current.ended = some (.error e) := by
  cases effect with
  | passed => exact .inl h
  | leftFailing hended =>
    obtain rfl := Option.some.inj h
    exact .inr (.inr hended)
  | advance ha =>
    obtain ⟨-, -, -, hchainError, -⟩ := ha.frame
    exact .inr (.inl (hchainError.symm.trans h))
  | _ => exact .inr (.inl h)

/-- The flush under way fails with a report, or with a write. -/
theorem Effect.ended_cases {run next : Run β} {turn : Turn β} {demands : List (Demand β)}
    (effect : Effect run turn next demands) {e : Error}
    (h : next.current.ended = some (.error e)) :
    run.current.ended = some (.error e) ∨
      (∃ frame, demands = [.report frame] ∧ run.reportFault frame = some e) ∨
        ∃ frame cause, turn = .wrote (.error cause) ∧ run.current.writing = some frame ∧
          e = .ofFrame frame cause := by
  cases effect with
  | @unreported frame e' writing fault =>
    obtain rfl : e' = e := by simpa using h
    exact .inr (.inl ⟨frame, rfl, fault⟩)
  | @unwritten frame cause writing =>
    obtain rfl : Error.ofFrame frame cause = e := by simpa using h
    exact .inr (.inr ⟨frame, cause, rfl, writing, rfl⟩)
  | flushedNothing | flushedFirst | wroteLast => simp at h
  | advance ha =>
    obtain ⟨-, -, -, -, hcurrent⟩ := ha.frame
    exact .inl (by rwa [← hcurrent])
  | _ => exact .inl h

end Run

namespace Session

/-- The errors on their way to be noted. -/
def errors (s : Session β) : List Error :=
  s.run.queue.filterMap Turn.error?

/-- Where an error comes from. -/
inductive Cause (s : Session β) : Error → Prop where
  /-- A computation failed. -/
  | computed {frame : Nat} {e : Error} (h : (frame, .error e) ∈ s.computed) :
      Cause s (.ofFrame frame e)
  /-- A write failed. -/
  | wrote {frame : Nat} {e : Error} (h : (frame, .error e) ∈ s.wrote) : Cause s (.ofFrame frame e)
  /-- A report failed. -/
  | reported {frame : Nat} {e : Error} (h : frame ∈ s.reportCalls)
      (fault : s.run.reportFault frame = some e) : Cause s e

/-- Whatever carries an error carries one with a cause. -/
structure Blame (s : Session β) : Prop where
  /-- The failures that were noted have causes. -/
  failures : ∀ e ∈ s.failures, Cause s e
  /-- So have the errors on their way to be noted. -/
  errors : ∀ e ∈ s.errors, Cause s e
  /-- So has the failure of the chain. -/
  chainError : ∀ e, s.run.chainError = some e → Cause s e
  /-- So has the failure of the flush under way. -/
  ended : ∀ e, s.run.current.ended = some (.error e) → Cause s e

/-- A failure is noted, or on its way to be noted. -/
inductive Alarm (s : Session β) : Prop where
  /-- A failure is noted. -/
  | noted (h : s.failures ≠ [])
  /-- A turn carries an error. -/
  | error {e : Error} (h : e ∈ s.errors)
  /-- A write failed, which has not been taken note of. -/
  | answer {e : Error} (h : .error e ∈ s.answers)
  /-- The flush under way failed. -/
  | ended {e : Error} (h : s.run.current.ended = some (.error e)) (first : s.run.chainError = none)

/-- Causes stay causes. -/
theorem Cause.mono {s t : Session β} {e : Error} (h : Cause s e) (computed : s.computed ⊆ t.computed)
    (wrote : s.wrote ⊆ t.wrote) (reports : s.reportCalls ⊆ t.reportCalls)
    (reportFault : t.run.reportFault = s.run.reportFault) : Cause t e := by
  cases h with
  | computed h => exact .computed (computed h)
  | wrote h => exact .wrote (wrote h)
  | reported h fault => exact .reported (reports h) (by rw [reportFault, fault])

/-- Causes stay causes, whatever happens. -/
theorem Cause.step {s t : Session β} {e : Error} (h : Cause s e) (step : Step s t) : Cause t e := by
  refine h.mono ?_ ?_ ?_ step.keeps.reportFault <;> cases step <;> simp [reportCalls]

/-- Whatever a turn leads to, what carries an error goes on to carry one with a cause. -/
theorem Blame.turn {s : Session β} (h : Blame s) (frames : Frames s) (writing : Writing s)
    {before after : List (Turn β)} {turn : Turn β}
    (queue : s.run.queue = before ++ turn :: after) {next : Run β} {demands : List (Demand β)}
    (effect : Run.Effect { s.run with queue := before ++ after } turn next demands) :
    Blame ((s.note turn).follow (next, demands)) := by
  have hmem : turn ∈ s.run.queue := by simp [queue]
  have hcause {e : Error} (he : Cause s e) : Cause ((s.note turn).follow (next, demands)) e :=
    he.mono (List.Subset.refl _) (List.Subset.refl _) (by simp) effect.keeps.reportFault
  have hturn {e : Error} (he : turn.error? = some e) : Cause s e :=
    h.errors e (List.mem_filterMap.mpr ⟨turn, hmem, he⟩)
  -- No result is refused, as the frames in the queue are none of those in the buffer.
  have haccepted : ∀ frame value, turn = .computed frame (.ok value) →
      s.run.buffer.put frame value ≠ none := by
    rintro frame value rfl hput
    have hsome := frames.put_isSome (List.mem_filterMap.mpr ⟨_, hmem, rfl⟩)
    rw [show s.run.buffer.put frame value = none from hput] at hsome
    cases hsome
  have hcarried {e : Error} (he : turn.error? = some e ∨ s.run.chainError = some e ∨
      s.run.current.ended = some (.error e)) : Cause ((s.note turn).follow (next, demands)) e := by
    rcases he with he | he | he
    · exact hcause (hturn he)
    · exact hcause (h.chainError e he)
    · exact hcause (h.ended e he)
  refine ⟨?_, ?_, fun e he => hcarried (effect.chainError_cases he), ?_⟩
  · intro e he
    rcases List.mem_append.mp he with hold | hnew
    · exact hcause (h.failures e hold)
    · refine hcause (hturn ?_)
      cases turn <;> simp_all
  · intro e he
    obtain ⟨posted, hposted, herrors⟩ := effect.error_posted haccepted
    have htaken := filterMap_taken (t := (s.note turn).follow (next, demands)) Turn.error? queue
      hposted
    rcases List.mem_append.mp (htaken.mem_iff.mp (List.mem_append_right _ he)) with hold | hnew
    · exact hcause (h.errors e hold)
    · obtain ⟨p, hp, hpe⟩ := List.mem_filterMap.mp hnew
      exact hcarried (herrors p hp e hpe)
  · intro e he
    rcases effect.ended_cases he with hold | ⟨frame, rfl, fault⟩ | ⟨frame, cause, rfl, hw, rfl⟩
    · exact hcause (h.ended e hold)
    · have hreported : frame ∈ ((s.note turn).follow (next, [.report frame])).reportCalls := by simp
      exact .reported hreported (by rwa [follow_run, effect.keeps.reportFault])
    · -- The frame of the flush is the one whose write was answered.
      obtain ⟨hcurrent, -, -, -, -, hwrote⟩ :=
        writing.of_answer (List.mem_filterMap.mpr ⟨_, hmem, rfl⟩)
      obtain rfl : s.run.written = frame := by simpa [hcurrent] using hw
      exact .wrote (by simp [hwrote])

/-- If the new errors have causes, and the old causes remain, every error has a cause. -/
theorem Blame.congr {s t : Session β} (h : Blame s) (cause : ∀ {e}, Cause s e → Cause t e)
    (failures : t.failures = s.failures) (errors : ∀ e ∈ t.errors, e ∈ s.errors ∨ Cause t e)
    (chainError : t.run.chainError = s.run.chainError)
    (ended : t.run.current.ended = s.run.current.ended) : Blame t where
  failures := fun e he => cause (h.failures e (by rwa [failures] at he))
  errors := fun e he => (errors e he).elim (fun he => cause (h.errors e he)) id
  chainError := fun e he => cause (h.chainError e (by rwa [chainError] at he))
  ended := fun e he => cause (h.ended e (by rwa [ended] at he))

/-- Whatever can happen, whatever carries an error carries one with a cause. -/
theorem Blame.step {s t : Session β} (h : Blame s) (frames : Frames s) (writing : Writing s)
    (step : Step s t) : Blame t := by
  have hcause {e : Error} (he : Cause s e) : Cause t e := he.step step
  cases step with
  | begin idle =>
    obtain ⟨hqueue, -, -, hchainError, hcurrent⟩ := s.run.advance_cases.frame
    refine h.congr hcause rfl (fun e he => .inl ?_) hchainError (congrArg Flush.ended hcurrent)
    rw [Session.errors, follow_run, hqueue] at he
    exact he
  | turn idle queue => exact h.turn frames writing queue (Run.take_cases _ _)
  | @computed frame value rounds computing =>
    exact h.congr hcause rfl (fun e he => .inl (by simpa [Session.errors] using he)) rfl rfl
  | @computeFailed frame e | @computeRaised frame e =>
    refine h.congr hcause rfl (fun e' he => ?_) rfl rfl
    obtain he | rfl : e' ∈ s.errors ∨ e' = Error.ofFrame frame e := by
      simpa [Session.errors, or_comm] using he
    · exact .inl he
    · exact .inr (.computed (by simp))
  | wrote result rounds writing =>
    exact h.congr hcause rfl (fun e he => .inl (by simpa [Session.errors] using he)) rfl rfl
  | abort => exact h.congr hcause rfl (fun e he => .inl he) rfl rfl

/-- Every error has a cause, in every session that can be reached. -/
theorem blame_of_reachable {total : Option Nat} {workers : Nat} {aborted : Bool}
    {reportFault : Nat → Option Error} {s : Session β}
    (h : Reachable (Run.fresh total workers aborted reportFault) s) : Blame s := by
  induction h with
  | refl => exact ⟨nofun, nofun, nofun, nofun⟩
  | tail hreach hstep ih =>
    exact ih.step (frames_of_reachable hreach) (writing_of_reachable hreach) hstep

/-- A turn that carries an error is an alarm. -/
theorem Alarm.of_error {s : Session β} {turn : Turn β} {e : Error} (mem : turn ∈ s.run.queue)
    (error : turn.error? = some e) : Alarm s :=
  .error (List.mem_filterMap.mpr ⟨turn, mem, error⟩)

/-- A turn about a write that failed is an alarm. -/
theorem Alarm.of_answer {s : Session β} {turn : Turn β} {e : Error} (mem : turn ∈ s.run.queue)
    (answer : turn.answer? = some (.error e)) : Alarm s :=
  .answer (List.mem_filterMap.mpr ⟨turn, mem, answer⟩)

/-- An alarm is not lost by a turn. -/
theorem Alarm.turn {s : Session β} (h : Alarm s) (front : Front s) (writing : Writing s)
    {before after : List (Turn β)} {turn : Turn β}
    (queue : s.run.queue = before ++ turn :: after) {next : Run β} {demands : List (Demand β)}
    (effect : Run.Effect { s.run with queue := before ++ after } turn next demands) :
    Alarm ((s.note turn).follow (next, demands)) := by
  have hpos := count_pos queue
  obtain ⟨posted, hposted⟩ := effect.queue_append
  have hstays {p : Turn β} (hp : p ∈ s.run.queue) : p ∈ next.queue ∨ p = turn := by
    rw [queue, List.mem_append, List.mem_cons] at hp
    rw [hposted, List.mem_append, List.mem_append]
    tauto
  cases h with
  | noted h => exact .noted (List.append_ne_nil_of_left_ne_nil h _)
  | @error e h =>
    obtain ⟨p, hp, he⟩ := List.mem_filterMap.mp h
    rcases hstays hp with hp | rfl
    · exact .of_error hp he
    -- The error passes on to the turn that is posted, or it is noted.
    · cases effect with
      | uncomputed | unflushed =>
        exact .of_error (List.mem_append_right _ (List.mem_singleton_self _)) he
      | @waited rounds turn =>
        exact .of_error (List.mem_append_right _ (List.mem_singleton_self _))
          ((turn.error?_after rounds).trans he)
      | failed => exact .noted (by simp)
      | passed => exact .of_error (List.mem_append_right _ List.mem_cons_self) he
      | _ => cases he
  | @answer e h =>
    obtain ⟨p, hp, he⟩ := List.mem_filterMap.mp h
    rcases hstays hp with hp | rfl
    · exact .of_answer hp he
    -- The flush under way ends with the error.
    · cases effect with
      | @waited rounds turn =>
        exact .of_answer (List.mem_append_right _ (List.mem_singleton_self _))
          ((turn.answer?_after rounds).trans he)
      | unwritten =>
        obtain ⟨-, -, -, -, -, -, hfirst⟩ := front.of_wrote hpos
        exact .ended rfl hfirst
      | unclaimed hw =>
        obtain ⟨hcurrent, -⟩ := writing.of_answer h
        simp [hcurrent] at hw
      | _ => cases he
  | @ended e h first =>
    cases effect with
    | flushedNothing | flushedFirst =>
      obtain ⟨-, -, -, -, hunbroken⟩ := front.of_flush hpos
      exact absurd h (hunbroken.2 e)
    | unreported | wroteLast | wroteNext | unwritten | unclaimed =>
      obtain ⟨-, -, -, -, hended, -⟩ := front.of_wrote hpos
      rw [hended] at h
      cases h
    | passed =>
      obtain ⟨-, -, -, -, hbroken⟩ := front.of_pass hpos
      exact absurd first hbroken
    | left hended => exact absurd h (hended e)
    | @leftFailing e' =>
      exact .of_error (List.mem_append_right _ List.mem_cons_self) rfl
    | failed => exact .noted (by simp)
    | arrived | refused | uncomputed | unflushed | adopted | waited => exact .ended h first
    | advance ha =>
      obtain ⟨-, -, -, hchainError, hcurrent⟩ := ha.frame
      exact .ended (e := e) (by simpa [hcurrent] using h) (by simpa [hchainError] using first)

/-- An alarm is not lost, whatever happens. -/
theorem Alarm.step {s t : Session β} (h : Alarm s) (front : Front s) (writing : Writing s)
    (step : Step s t) : Alarm t := by
  cases step with
  | turn idle queue => exact h.turn front writing queue (Run.take_cases _ _)
  | begin idle =>
    obtain ⟨hqueue, -, -, hchainError, hcurrent⟩ := s.run.advance_cases.frame
    cases h with
    | noted h => exact .noted h
    | error h => exact .error (by simpa [errors, hqueue] using h)
    | answer h => exact .answer (by simpa [answers, hqueue] using h)
    | ended h first =>
      exact .ended (by simpa [hcurrent] using h) (by simpa [hchainError] using first)
  | computed | computeFailed | computeRaised | wrote =>
    cases h with
    | noted h => exact .noted h
    | error h => exact .error (List.filterMap_append ▸ List.mem_append_left _ h)
    | answer h => exact .answer (List.filterMap_append ▸ List.mem_append_left _ h)
    | ended h first => exact .ended h first
  | abort =>
    cases h with
    | noted h => exact .noted h
    | error h => exact .error h
    | answer h => exact .answer h
    | ended h first => exact .ended h first

/-- A report that fails raises an alarm. -/
theorem Cause.of_turn {s : Session β} (front : Front s) {before after : List (Turn β)}
    {turn : Turn β} (queue : s.run.queue = before ++ turn :: after) {next : Run β}
    {demands : List (Demand β)} {e : Error}
    (effect : Run.Effect { s.run with queue := before ++ after } turn next demands)
    (h : Cause ((s.note turn).follow (next, demands)) e) :
    Cause s e ∨ Alarm ((s.note turn).follow (next, demands)) := by
  have hpos := count_pos queue
  have hfault := effect.keeps.reportFault
  cases h with
  | computed h => exact .inl (.computed h)
  | wrote h => exact .inl (.wrote h)
  | @reported frame e h fault =>
    rw [follow_run, hfault] at fault
    rw [reportCalls_follow, reportCalls_note, List.mem_append] at h
    rcases h with h | h
    · exact .inl (.reported h fault)
    · -- The report is one that the turn demands.
      cases effect with
      | unreported =>
        obtain ⟨-, -, -, -, -, -, hfirst⟩ := front.of_wrote hpos
        exact .inr (.ended rfl hfirst)
      | @wroteLast written _ hnone =>
        obtain rfl : frame = written := by simpa using h
        exact absurd (hnone.symm.trans fault) (Option.some_ne_none _).symm
      | @wroteNext written _ _ _ _ hnone =>
        obtain rfl : frame = written := by simpa [List.filterMap_cons] using h
        exact absurd (hnone.symm.trans fault) (Option.some_ne_none _).symm
      | advance ha => cases ha <;> cases h
      | _ => cases h

/-- A new cause of an error raises an alarm. -/
theorem Cause.of_step {s t : Session β} {e : Error} (h : Cause t e) (front : Front s)
    (step : Step s t) : Cause s e ∨ Alarm t := by
  have hfault := step.keeps.reportFault
  cases step with
  | turn idle queue => exact h.of_turn front queue (Run.take_cases _ _)
  | begin idle =>
    refine .inl (h.mono (List.Subset.refl _) (List.Subset.refl _) ?_ hfault.symm)
    rw [reportCalls_follow, s.run.advance_cases.report_eq_nil, List.append_nil]
    exact List.Subset.refl _
  | computed value rounds computing =>
    cases h with
    | computed h => exact .inl (.computed (by simpa using h))
    | wrote h => exact .inl (.wrote h)
    | reported h fault => exact .inl (.reported h fault)
  | computeFailed e rounds computing | computeRaised e rounds computing =>
    right
    exact .of_error (List.mem_append_right _ (List.mem_singleton_self _))
      (Turn.error?_after rounds _)
  | wrote result rounds writing =>
    cases h with
    | computed h => exact .inl (.computed h)
    | reported h fault => exact .inl (.reported h fault)
    | @wrote frame e h =>
      rcases List.mem_append.mp h with h | h
      · exact .inl (.wrote h)
      · -- This is the write that ends, and the turn that is posted carries its error.
        obtain ⟨-, rfl⟩ := Prod.mk.inj (List.mem_singleton.mp h)
        right
        exact .of_answer (List.mem_append_right _ (List.mem_singleton_self _))
          (Turn.answer?_after rounds _)
  | abort =>
    cases h with
    | computed h => exact .inl (.computed h)
    | wrote h => exact .inl (.wrote h)
    | reported h fault => exact .inl (.reported h fault)

/-- Whatever has caused an error, a failure is noted, or is on its way to be noted. -/
theorem alarm_of_cause {total : Option Nat} {workers : Nat} {aborted : Bool}
    {reportFault : Nat → Option Error} {s : Session β} {e : Error}
    (h : Reachable (Run.fresh total workers aborted reportFault) s) (cause : Cause s e) :
    Alarm s := by
  induction h generalizing e with
  | refl =>
    cases cause with
    | computed h | wrote h | reported h => cases h
  | tail hreach hstep ih =>
    have hfront := (control_of_reachable hreach).front
    rcases cause.of_step hfront hstep with hcause | halarm
    · exact (ih hcause).step hfront (writing_of_reachable hreach) hstep
    · exact halarm

/-- At rest every alarm is noted. -/
theorem AtRest.failures_ne_nil {s : Session β} (h : AtRest s) (control : Control s)
    (alarm : Alarm s) : s.failures ≠ [] := by
  cases alarm with
  | noted h' => exact h'
  | error h' => simp [errors, h.queue] at h'
  | answer h' => simp [answers, h.queue] at h'
  | @ended e h' first =>
    obtain ⟨-, -, -, hsound⟩ := control.front.of_chain_eq_zero (h.done control).1
    exact absurd h' ((hsound.resolve_left (· first)).2 e)

end Session

end Flipbook
