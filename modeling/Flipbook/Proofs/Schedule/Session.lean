import Mathlib.Logic.Relation
import Mathlib.Tactic.Simps.Basic
import Flipbook.Schedule.Run

/-!
# Runs among their surroundings

A session is a run together with what it has demanded so far and what the outside world has
answered. Computations and writes end in any order, with any outcome, and after any number of rounds
of waiting; an abort comes at any moment, even between the starts of two workers. The turns in the
queue of a run are taken in any order. First come, first served, as `Run.step` takes them, is one of
these orders.

## Main definitions

* `Session`: a run, what it has demanded, and the answers;
* `Session.Step`: what can happen next;
* `Session.Reachable`: what can come of a run whose workers have not begun;
* `Run.Advance`, `Run.Effect`: everything that beginning a frame, or taking a turn, can do.

## Main results

* `Run.advance_cases`, `Run.take_cases`: a run does nothing else;
* `Session.reachable_launch`: a run that begins with all its workers is reachable;
* `Session.steps_serve`: so is what `Run.step` makes of it, turn after turn.
-/

namespace Flipbook

variable {β : Type}

attribute [simp] Run.post Run.abort

/-- The frame that a demand is to compute. -/
@[simp]
def Demand.compute? : Demand β → Option Nat
  | .compute frame => some frame
  | _ => none

/-- The frame that a demand is to write, with its value. -/
@[simp]
def Demand.write? : Demand β → Option (Nat × β)
  | .write frame value => some (frame, value)
  | _ => none

/-- The frame that a demand is to report. -/
@[simp]
def Demand.report? : Demand β → Option Nat
  | .report frame => some frame
  | _ => none

/-- The failure that a turn notes. -/
@[simp]
def Turn.failure? : Turn β → Option Error
  | .failed e => some e
  | _ => none

/-- A run among the computations and writes that it demanded. -/
structure Session (β : Type) where
  /-- The run. -/
  run : Run β
  /-- The number of workers that have not begun. -/
  idle : Nat
  /-- Everything that was demanded, in order. -/
  demands : List (Demand β)
  /-- The frames that are being computed. -/
  computing : List Nat
  /-- The computations that ended, in order. -/
  computed : List (Nat × Except Error β)
  /-- The frames that are being written. -/
  writing : List Nat
  /-- The writes that ended, in order. -/
  wrote : List (Nat × Except Error Unit)
  /-- The failures that were noted, in order. -/
  failures : List Error

namespace Session

/-- The frames whose computation was demanded, in order. -/
def computeCalls (s : Session β) : List Nat :=
  s.demands.filterMap Demand.compute?

/-- The frames that were to be written, with their values, in order. -/
def writeCalls (s : Session β) : List (Nat × β) :=
  s.demands.filterMap Demand.write?

/-- The frames that were reported, in order. -/
def reportCalls (s : Session β) : List Nat :=
  s.demands.filterMap Demand.report?

/-- The frames that were written successfully, in order. -/
def successes (s : Session β) : List Nat :=
  (s.wrote.filter fun w => w.2.isOk).map Prod.fst

/-- A session with a run whose workers have not begun. -/
@[simps]
def opening (run : Run β) : Session β where
  run := run
  idle := run.workers
  demands := []
  computing := []
  computed := []
  writing := []
  wrote := []
  failures := []

/-- Takes over what has become of the run, and what it demands. -/
@[simps]
def follow (s : Session β) (next : Run β × List (Demand β)) : Session β :=
  { s with
    run := next.1
    demands := s.demands ++ next.2
    computing := s.computing ++ next.2.filterMap Demand.compute?
    writing := s.writing ++ (next.2.filterMap Demand.write?).map Prod.fst }

/-- The computation of a frame ends, which makes a turn possible. -/
@[simps]
def endCompute (s : Session β) (frame : Nat) (result : Except Error β) (turn : Turn β) :
    Session β :=
  { s with
    run := s.run.post turn
    computing := s.computing.erase frame
    computed := s.computed ++ [(frame, result)] }

/-- The write of a frame ends, which makes a turn possible. -/
@[simps]
def endWrite (s : Session β) (frame : Nat) (result : Except Error Unit) (turn : Turn β) :
    Session β :=
  { s with
    run := s.run.post turn
    writing := s.writing.erase frame
    wrote := s.wrote ++ [(frame, result)] }

/-- A failure that a turn notes is added to the failures. -/
@[simps]
def note (s : Session β) (turn : Turn β) : Session β :=
  { s with failures := s.failures ++ turn.failure?.toList }

@[simp]
theorem computeCalls_follow (s : Session β) (next : Run β × List (Demand β)) :
    (s.follow next).computeCalls = s.computeCalls ++ next.2.filterMap Demand.compute? :=
  List.filterMap_append

@[simp]
theorem writeCalls_follow (s : Session β) (next : Run β × List (Demand β)) :
    (s.follow next).writeCalls = s.writeCalls ++ next.2.filterMap Demand.write? :=
  List.filterMap_append

@[simp]
theorem reportCalls_follow (s : Session β) (next : Run β × List (Demand β)) :
    (s.follow next).reportCalls = s.reportCalls ++ next.2.filterMap Demand.report? :=
  List.filterMap_append

@[simp]
theorem computeCalls_note (s : Session β) (turn : Turn β) :
    (s.note turn).computeCalls = s.computeCalls :=
  rfl

@[simp]
theorem writeCalls_note (s : Session β) (turn : Turn β) :
    (s.note turn).writeCalls = s.writeCalls :=
  rfl

@[simp]
theorem reportCalls_note (s : Session β) (turn : Turn β) :
    (s.note turn).reportCalls = s.reportCalls :=
  rfl

/-- Takes so many turns, first come, first served, if there are so many. -/
def serve : Nat → Session β → Session β
  | 0, s => s
  | n + 1, s =>
    match s.run.queue, s.run.step with
    | turn :: _, some next => serve n ((s.note turn).follow next)
    | _, _ => s

/-- What can happen next in a session. -/
inductive Step (s : Session β) : Session β → Prop where
  /-- A worker begins. -/
  | begin {n : Nat} (idle : s.idle = n + 1) : Step s ({ s with idle := n }.follow s.run.advance)
  /-- A turn is taken, once all workers have begun. -/
  | turn {before after : List (Turn β)} {turn : Turn β} (idle : s.idle = 0)
      (queue : s.run.queue = before ++ turn :: after) :
      Step s ((s.note turn).follow ({ s.run with queue := before ++ after }.take turn))
  /-- A computation yields a value. -/
  | computed {frame : Nat} (value : β) (rounds : Nat) (computing : frame ∈ s.computing) :
      Step s (s.endCompute frame (.ok value) (.after rounds (.computed frame (.ok (some value)))))
  /-- A computation fails. -/
  | computeFailed {frame : Nat} (e : Error) (rounds : Nat) (computing : frame ∈ s.computing) :
      Step s (s.endCompute frame (.error e) (.after rounds (.computed frame (.error e))))
  /-- A computation fails at once, and its worker with it. -/
  | computeRaised {frame : Nat} (e : Error) (rounds : Nat) (computing : frame ∈ s.computing) :
      Step s (s.endCompute frame (.error e) (.after rounds (.failed (.ofFrame frame e))))
  /-- A write ends, successfully or not. -/
  | wrote {frame : Nat} (result : Except Error Unit) (rounds : Nat) (writing : frame ∈ s.writing) :
      Step s (s.endWrite frame result (.after rounds (.wrote result)))
  /-- The run is asked to stop. -/
  | abort : Step s { s with run := s.run.abort }

/-- What can come of a run whose workers have not begun. -/
def Reachable (run : Run β) (s : Session β) : Prop :=
  Relation.ReflTransGen Step (opening run) s

/-- A session at rest: all workers have begun, nothing is being computed or written, and no turn is
left. -/
structure AtRest (s : Session β) : Prop where
  /-- All workers have begun. -/
  idle : s.idle = 0
  /-- No frame is being computed. -/
  computing : s.computing = []
  /-- No frame is being written. -/
  writing : s.writing = []
  /-- No turn is left. -/
  queue : s.run.queue = []

/-- Workers that begin one after the other are so many steps. -/
theorem steps_startWorkers (n : Nat) (s : Session β) (h : s.idle = n) :
    Relation.ReflTransGen Step s ({ s with idle := 0 }.follow (Run.startWorkers n s.run)) := by
  induction n generalizing s with
  | zero =>
    have hsame : { s with idle := 0 }.follow (Run.startWorkers 0 s.run) = s := by
      cases s
      simp_all [follow, Run.startWorkers]
    rw [hsame]
  | succ n ih =>
    refine (Relation.ReflTransGen.single (.begin h)).trans ?_
    have hrest := ih ({ s with idle := n }.follow s.run.advance) rfl
    simpa [follow, Run.startWorkers] using hrest

/-- A run that begins with all its workers is reachable. -/
theorem reachable_launch (total : Option Nat) (workers : Nat) (aborted : Bool)
    (reportFault : Nat → Option Error) :
    Reachable (Run.fresh total workers aborted reportFault : Run β)
      ({ opening (Run.fresh total workers aborted reportFault) with idle := 0 }.follow
        (Run.launch total workers aborted reportFault)) :=
  steps_startWorkers _ (opening _) rfl

/-- Taking the first turn of the queue is a step. -/
theorem step_of_runStep {s : Session β} {turn : Turn β} {queue : List (Turn β)}
    {next : Run β × List (Demand β)} (hidle : s.idle = 0) (hqueue : s.run.queue = turn :: queue)
    (h : s.run.step = some next) : Step s ((s.note turn).follow next) := by
  have htake : next = { s.run with queue }.take turn := by
    simpa [Run.step, hqueue, eq_comm] using h
  have hqueue : s.run.queue = [] ++ turn :: queue := by rwa [List.nil_append]
  have hstep := Step.turn hidle hqueue
  rw [htake]
  rwa [List.nil_append] at hstep

/-- Turns that are taken first come, first served, are steps. -/
theorem steps_serve (n : Nat) (s : Session β) (h : s.idle = 0) :
    Relation.ReflTransGen Step s (s.serve n) := by
  induction n generalizing s with
  | zero => exact .refl
  | succ n ih =>
    unfold serve
    split
    next turn queue next hqueue hstep =>
      exact (Relation.ReflTransGen.single (step_of_runStep h hqueue hstep)).trans (ih _ h)
    next => exact .refl

section Queue

variable {γ : Type} (f : Turn β → Option γ) {s t : Session β} {before after posted : List (Turn β)}
  {turn : Turn β}

/-- What the turns in the queue bring, after one was taken and others were posted. -/
theorem filterMap_taken (queue : s.run.queue = before ++ turn :: after)
    (next : t.run.queue = before ++ after ++ posted) :
    ((f turn).toList ++ t.run.queue.filterMap f).Perm
      (s.run.queue.filterMap f ++ posted.filterMap f) := by
  rw [queue, next]
  cases hturn : f turn with
  | none => simp [hturn]
  | some p => simpa [hturn] using List.perm_middle.symm

/-- If the turns posted bring what the one taken does, the queue as a whole brings the same. -/
theorem filterMap_perm (queue : s.run.queue = before ++ turn :: after)
    (next : t.run.queue = before ++ after ++ posted)
    (same : posted.filterMap f = (f turn).toList) :
    (t.run.queue.filterMap f).Perm (s.run.queue.filterMap f) := by
  have htaken := filterMap_taken f queue next
  rw [same] at htaken
  exact (List.perm_append_left_iff _).mp (htaken.trans List.perm_append_comm)

/-- If the turns posted bring nothing, what the one taken brings is gone. -/
theorem cons_filterMap_perm {result : γ} (queue : s.run.queue = before ++ turn :: after)
    (next : t.run.queue = before ++ after ++ posted) (taken : f turn = some result)
    (none : posted.filterMap f = []) :
    (result :: t.run.queue.filterMap f).Perm (s.run.queue.filterMap f) := by
  have htaken := filterMap_taken f queue next
  rwa [taken, none, List.append_nil] at htaken

end Queue

end Session

namespace Run

/-- All that a worker can do when it is to begin a frame. -/
inductive Advance (run : Run β) : Run β → List (Demand β) → Prop where
  /-- The run is stopped, or there is no frame left: the worker is done. -/
  | done (h : run.stopped ∨ ∃ n, run.total = some n ∧ n ≤ run.nextFrame) :
      Advance run { run with workers := run.workers - 1 } []
  /-- The abort is noticed. -/
  | cancelled (running : run.stopped = false) (aborted : run.aborted) :
      Advance run { run with cancelled := true, stopped := true, workers := run.workers - 1 } []
  /-- The next frame is to be computed. -/
  | next (running : run.stopped = false) (left : ∀ n, run.total = some n → run.nextFrame < n)
      (asked : run.aborted = false) :
      Advance run { run with nextFrame := run.nextFrame + 1 } [.compute run.nextFrame]

/-- A worker that is to begin a frame does nothing else. -/
theorem advance_cases (run : Run β) : Advance run run.advance.1 run.advance.2 := by
  unfold advance
  split
  next h =>
    refine .done ?_
    simpa [Option.any_eq_true] using h
  next h =>
    rw [Bool.or_eq_true, not_or, Bool.not_eq_true] at h
    split
    next haborted => exact .cancelled h.1 haborted
    next hasked =>
      refine .next h.1 (fun n hn => ?_) (by simpa using hasked)
      simpa [hn] using h.2

/-- A worker that is to begin a frame leaves the queue, the buffer and the chain alone. -/
theorem Advance.frame {run next : Run β} {demands : List (Demand β)}
    (h : Advance run next demands) :
    next.queue = run.queue ∧ next.buffer = run.buffer ∧ next.chain = run.chain ∧
      next.chainError = run.chainError ∧ next.current = run.current := by
  cases h <;> exact ⟨rfl, rfl, rfl, rfl, rfl⟩

/-- A worker that is to begin a frame reports nothing. -/
theorem Advance.report_eq_nil {run next : Run β} {demands : List (Demand β)}
    (h : Advance run next demands) : demands.filterMap Demand.report? = [] := by
  cases h <;> rfl

/-- The turn that a flush at the head of the chain is given: it is passed over if one before it
failed. -/
def headTurn (run : Run β) : Turn β :=
  run.chainError.elim .flush .pass

theorem postIf_eq (run : Run β) (condition : Bool) (turn : Turn β) :
    run.postIf condition turn =
      { run with queue := run.queue ++ if condition then [turn] else [] } := by
  unfold postIf
  split <;> simp [post, *]

theorem requestFlush_eq (run : Run β) :
    run.requestFlush =
      { run with
        chain := run.chain + 1
        queue := run.queue ++ if run.chain = 0 then [run.headTurn] else [] } := by
  unfold requestFlush headTurn
  dsimp only
  split
  · split <;> simp_all [post]
  · simp

theorem endFlush_eq (run : Run β) (result : Except Error Unit) :
    run.endFlush result =
      { run with
        current :=
          { run.current with remaining := [], writing := none, ended := some result }
        queue := run.queue ++ if run.current.adopted then [.leave] else [] } := by
  unfold endFlush
  rw [postIf_eq]

theorem leaveChain_ok (run : Run β) :
    run.leaveChain (.ok ()) =
      { run with
        chain := run.chain - 1
        queue := run.queue ++ .flushed (.ok ()) :: if 1 < run.chain then [.flush] else [] } := by
  have hlast : (0 < run.chain - 1) = (1 < run.chain) := by grind
  simp [leaveChain, postIf_eq, post, hlast]

theorem leaveChain_error (run : Run β) (e : Error) :
    run.leaveChain (.error e) =
      { run with
        chain := run.chain - 1
        chainError := some e
        queue := run.queue ++ .flushed (.error e) :: if 1 < run.chain then [.pass e] else [] } := by
  have hlast : (0 < run.chain - 1) = (1 < run.chain) := by grind
  simp [leaveChain, postIf_eq, post, hlast]

/-- All that a turn can lead to, in a run whose queue it has left. -/
inductive Effect (run : Run β) : Turn β → Run β → List (Demand β) → Prop where
  /-- A result is put into the buffer, and a flush is added to the chain. -/
  | arrived {frame : Nat} {value : Option β} {buffer : ReorderBuffer Nat β}
      (put : run.buffer.put frame value = some buffer) :
      Effect run (.computed frame (.ok value))
        { run with
          buffer
          chain := run.chain + 1
          queue := run.queue ++ if run.chain = 0 then [run.headTurn] else [] } []
  /-- A result is refused. -/
  | refused {frame : Nat} {value : Option β} (put : run.buffer.put frame value = none) :
      Effect run (.computed frame (.ok value))
        (run.post (.failed (.output (.producedTwice (.ofNat frame))))) []
  /-- A computation failed, and its worker fails with it. -/
  | uncomputed {frame : Nat} {e : Error} :
      Effect run (.computed frame (.error e)) (run.post (.failed (.ofFrame frame e))) []
  /-- A worker goes on after its flush. -/
  | advance {next : Run β} {demands : List (Demand β)} (h : Advance run next demands) :
      Effect run (.flushed (.ok ())) next demands
  /-- A flush failed, and its worker fails with it. -/
  | unflushed {e : Error} : Effect run (.flushed (.error e)) (run.post (.failed e)) []
  /-- A failure is noted. -/
  | failed {e : Error} :
      Effect run (.failed e)
        { run with
          stopped := true
          failure := run.failure.or (some e)
          workers := run.workers - 1 } []
  /-- A flush begins and has nothing to write. -/
  | flushedNothing (h : run.buffer.takeReady.1 = [] ∨ run.stopped) :
      Effect run .flush
        { run with
          buffer := run.buffer.takeReady.2
          current := ⟨[], none, some (.ok ()), false⟩
          queue := run.queue ++ [.adopt] } []
  /-- A flush begins to write. -/
  | flushedFirst {frame : Nat} {value : β} {rest : List (Nat × β)}
      (ready : run.buffer.takeReady.1 = (frame, value) :: rest) (running : run.stopped = false) :
      Effect run .flush
        { run with
          buffer := run.buffer.takeReady.2
          current := ⟨rest, some frame, none, false⟩
          queue := run.queue ++ [.adopt] } [.write frame value]
  /-- A flush is passed over. -/
  | passed {e : Error} :
      Effect run (.pass e)
        { run with
          chain := run.chain - 1
          chainError := some e
          queue := run.queue ++ .flushed (.error e) :: if 1 < run.chain then [.pass e] else [] } []
  /-- Nobody waits for the write that ended. -/
  | unclaimed {result : Except Error Unit} (writing : run.current.writing = none) :
      Effect run (.wrote result) run []
  /-- A frame was written, and reporting it fails. -/
  | unreported {frame : Nat} {e : Error} (writing : run.current.writing = some frame)
      (fault : run.reportFault frame = some e) :
      Effect run (.wrote (.ok ()))
        { run with
          written := run.written + 1
          current := { run.current with remaining := [], writing := none, ended := some (.error e) }
          queue := run.queue ++ if run.current.adopted then [.leave] else [] } [.report frame]
  /-- A frame was written and reported, and the flush ends. -/
  | wroteLast {frame : Nat} (writing : run.current.writing = some frame)
      (fault : run.reportFault frame = none) (h : run.current.remaining = [] ∨ run.stopped) :
      Effect run (.wrote (.ok ()))
        { run with
          written := run.written + 1
          current := { run.current with remaining := [], writing := none, ended := some (.ok ()) }
          queue := run.queue ++ if run.current.adopted then [.leave] else [] } [.report frame]
  /-- A frame was written and reported, and the flush goes on to the next one. -/
  | wroteNext {frame next : Nat} {value : β} {rest : List (Nat × β)}
      (writing : run.current.writing = some frame) (fault : run.reportFault frame = none)
      (remaining : run.current.remaining = (next, value) :: rest) (running : run.stopped = false) :
      Effect run (.wrote (.ok ()))
        { run with
          written := run.written + 1
          current := { run.current with remaining := rest, writing := some next } }
        [.report frame, .write next value]
  /-- A frame could not be written. -/
  | unwritten {frame : Nat} {e : Error} (writing : run.current.writing = some frame) :
      Effect run (.wrote (.error e))
        { run with
          current :=
            { run.current with
              remaining := [], writing := none, ended := some (.error (.ofFrame frame e)) }
          queue := run.queue ++ if run.current.adopted then [.leave] else [] } []
  /-- The chain takes note of the flush under way. -/
  | adopted :
      Effect run .adopt
        { run with
          current := { run.current with adopted := true }
          queue := run.queue ++ if run.current.ended.isSome then [.leave] else [] } []
  /-- A flush that succeeded leaves the chain. -/
  | left (ended : ∀ e, run.current.ended ≠ some (.error e)) :
      Effect run .leave
        { run with
          chain := run.chain - 1
          queue := run.queue ++ .flushed (.ok ()) :: if 1 < run.chain then [.flush] else [] } []
  /-- A flush that failed leaves the chain. -/
  | leftFailing {e : Error} (ended : run.current.ended = some (.error e)) :
      Effect run .leave
        { run with
          chain := run.chain - 1
          chainError := some e
          queue := run.queue ++ .flushed (.error e) :: if 1 < run.chain then [.pass e] else [] } []
  /-- A turn waits for one round less. -/
  | waited {rounds : Nat} {turn : Turn β} :
      Effect run (.wait rounds turn) (run.post (turn.after rounds)) []

/-- A turn only adds to the queue. -/
theorem Effect.queue_append {run next : Run β} {turn : Turn β} {demands : List (Demand β)}
    (h : Effect run turn next demands) : ∃ posted, next.queue = run.queue ++ posted := by
  cases h with
  | advance ha => exact ⟨[], by rw [ha.frame.1, List.append_nil]⟩
  | failed | unclaimed | wroteNext => exact ⟨[], (List.append_nil _).symm⟩
  | _ => exact ⟨_, rfl⟩

/-- The flush under way goes on in one of two ways. -/
theorem writeNext_eq (run : Run β) (remaining : List (Nat × β)) :
    run.writeNext remaining = (run.endFlush (.ok ()), []) ∧ (remaining = [] ∨ run.stopped) ∨
      ∃ frame value rest, remaining = (frame, value) :: rest ∧ run.stopped = false ∧
        run.writeNext remaining =
          ({ run with current := { run.current with remaining := rest, writing := some frame } },
            [.write frame value]) := by
  cases remaining with
  | nil => exact .inl ⟨rfl, .inl rfl⟩
  | cons p rest =>
    cases hstopped : run.stopped with
    | true => exact .inl ⟨by simp [writeNext, hstopped], .inr rfl⟩
    | false => exact .inr ⟨p.1, p.2, rest, rfl, rfl, by simp [writeNext, hstopped]⟩

/-- A flush that begins either has nothing to write or writes its first result. -/
theorem beginFlush_cases (run : Run β) :
    Effect run .flush run.beginFlush.1 run.beginFlush.2 := by
  unfold beginFlush
  generalize htaken : run.buffer.takeReady = taken
  obtain ⟨ready, buffer⟩ := taken
  dsimp only
  rcases writeNext_eq { run with buffer, current := ⟨[], none, none, false⟩ } ready with
    ⟨heq, h⟩ | ⟨frame, value, rest, rfl, hrunning, heq⟩
  · rw [heq]
    have hends : run.buffer.takeReady.1 = [] ∨ run.stopped := by rwa [htaken]
    simpa [endFlush_eq, post, htaken] using Effect.flushedNothing hends
  · rw [heq]
    have hready : run.buffer.takeReady.1 = (frame, value) :: rest := by rw [htaken]
    simpa [post, htaken] using Effect.flushedFirst hready hrunning

/-- A frame that was written is reported, and the flush ends or goes on. -/
theorem noteWritten_cases {run : Run β} {frame : Nat} (writing : run.current.writing = some frame) :
    Effect run (.wrote (.ok ())) (run.noteWritten frame).1 (run.noteWritten frame).2 := by
  unfold noteWritten
  dsimp only
  split
  next e hfault =>
    simpa [endFlush_eq] using Effect.unreported writing hfault
  next hfault =>
    rcases writeNext_eq { run with written := run.written + 1 } run.current.remaining with
      ⟨heq, h⟩ | ⟨next, value, rest, hremaining, hrunning, heq⟩
    · rw [heq]
      simpa [endFlush_eq] using Effect.wroteLast writing hfault h
    · rw [heq]
      exact .wroteNext writing hfault hremaining hrunning

/-- A turn leads to nothing else. -/
theorem take_cases (run : Run β) (turn : Turn β) :
    Effect run turn (run.take turn).1 (run.take turn).2 := by
  cases turn with
  | computed frame result =>
    cases result with
    | ok value =>
      simp only [take]
      split
      next buffer hput =>
        rw [requestFlush_eq]
        exact .arrived hput
      next hput => exact .refused hput
    | error e => exact .uncomputed
  | flushed result =>
    cases result with
    | ok => exact .advance run.advance_cases
    | error e => exact .unflushed
  | failed e => exact .failed
  | flush => exact run.beginFlush_cases
  | pass e =>
    simp only [take, leaveChain_error]
    exact .passed
  | wrote result =>
    unfold take
    cases hwriting : run.current.writing with
    | none => exact .unclaimed hwriting
    | some frame =>
      cases result with
      | ok => exact noteWritten_cases hwriting
      | error e =>
        simp only [endFlush_eq]
        exact .unwritten hwriting
  | adopt =>
    simp only [take, postIf_eq]
    exact .adopted
  | leave =>
    unfold take
    cases hended : run.current.ended with
    | none =>
      -- A flush that has not ended would leave as if it had succeeded.
      simp only [Option.getD_none, leaveChain_ok]
      exact .left (by simp [hended])
    | some result =>
      cases result with
      | ok done =>
        cases done
        simp only [Option.getD_some, leaveChain_ok]
        exact .left (by simp [hended])
      | error e =>
        simp only [Option.getD_some, leaveChain_error]
        exact .leftFailing hended
  | wait rounds turn => exact .waited

end Run

end Flipbook
