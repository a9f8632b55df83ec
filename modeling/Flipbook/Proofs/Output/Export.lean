import Flipbook.Output.Export
import Flipbook.Proofs.Schedule.Effort
import Flipbook.Proofs.Schedule.Outcome
import Mathlib.Order.WellFounded

/-!
# Exports among their surroundings

An export is a session whose computations are those of the task and whose writes go to its renderer.
Computations and writes end in any order and after any number of rounds, and an abort comes at any
moment. When the frames have come to an end, the renderer is finalized, and the export settles.

The steps of the session go on to be possible whatever the renderer is asked meanwhile. That nothing
is written once the renderer is finalized is therefore proved, and not assumed.

## Main definitions

* `Export`: a session, how far finalizing has come, and the calls of the renderer;
* `ExportTask.Step`, `ExportTask.Reachable`: what can happen to an export;
* `ExportTask.Sound`: what holds of every export that can be reached, as an invariant;
* `ExportTask.Settled`: how an export ends;
* `ExportTask.Dependable`: what an export keeps to, whatever happens.

## Main results

* `ExportTask.sound_of_reachable`: the invariant holds;
* `ExportTask.Sound.finalizedLast`: the renderer is finalized once, after all writes;
* `ExportTask.exists_step`, `ExportTask.not_endless`: an export that has not settled can go on, but
  not forever;
* `ExportTask.Sound.settled`: the error of the frames comes before that of finalizing;
* `ExportTask.dependable`: all of this together.
-/

namespace Flipbook

variable {α β σ : Type}

/-- Writes frames one after the other, whatever comes of each of them. -/
def Renderer.writes (renderer : Renderer α β σ) (state : Rendering σ) :
    List (Nat × β) → Rendering σ × List (Nat × Except Error Unit)
  | [] => (state, [])
  | (frame, value) :: rest =>
    let (state, outcome) := renderer.write state (.ofNat frame) value
    let (state, results) := renderer.writes state rest
    (state, (frame, outcome.result) :: results)

theorem Renderer.writes_append (renderer : Renderer α β σ) (state : Rendering σ)
    (calls more : List (Nat × β)) :
    renderer.writes state (calls ++ more) =
      ((renderer.writes (renderer.writes state calls).1 more).1,
        (renderer.writes state calls).2 ++
          (renderer.writes (renderer.writes state calls).1 more).2) := by
  induction calls generalizing state with
  | nil => rfl
  | cons call calls ih =>
    simp only [List.cons_append, writes, ih]

theorem Renderer.map_fst_writes (renderer : Renderer α β σ) (state : Rendering σ)
    (calls : List (Nat × β)) :
    (renderer.writes state calls).2.map Prod.fst = calls.map Prod.fst := by
  induction calls generalizing state with
  | nil => rfl
  | cons call calls ih => exact congrArg _ (ih _)

/-- A call of a renderer, as it begins or ends. -/
inductive RendererEvent where
  | writeBegun (frame : Nat)
  | writeEnded (frame : Nat)
  | finalizeBegun
  | finalizeEnded
  deriving DecidableEq, Repr

/-- The calls that write so many frames, one after the other. -/
def frameEvents (n : Nat) : List RendererEvent :=
  (List.range n).flatMap fun frame => [.writeBegun frame, .writeEnded frame]

/-- How far finalizing has come. -/
inductive Stage (σ : Type) where
  /-- Frames are computed and written. -/
  | frames
  /-- The frames have come to an end, and the renderer is being finalized. -/
  | finalizing (frames : Except Error Nat)
  /-- The renderer was finalized. -/
  | settled (frames : Except Error Nat) (finalized : Rendering σ × Except Error Unit)

/-- The calls of the renderer that finalize it. -/
def Stage.events : Stage σ → List RendererEvent
  | .frames => []
  | .finalizing _ => [.finalizeBegun]
  | .settled .. => [.finalizeBegun, .finalizeEnded]

/-- The steps to the end. -/
def Stage.rank : Stage σ → Nat
  | .frames => 2
  | .finalizing _ => 1
  | .settled .. => 0

/-- The calls of the renderer between two sessions. -/
def Session.callsUntil (s t : Session β) : List RendererEvent :=
  ((t.writeCalls.drop s.writeCalls.length).map fun call => .writeBegun call.1) ++
    (t.wrote.drop s.wrote.length).map fun write => .writeEnded write.1

/-- An export under way. -/
structure Export (β σ : Type) where
  session : Session β
  /-- Why no frames are computed, if the concurrency makes no sense. -/
  refusal : Option OutputError
  /-- How far finalizing has come. -/
  stage : Stage σ
  /-- The calls of the renderer, in order. -/
  events : List RendererEvent

/-- The outcome of the frames, if they have come to an end. -/
def Export.framesResult (e : Export β σ) : Option (Except Error Nat) :=
  match e.refusal with
  | some refusal => some (.error (.output refusal))
  | none => e.session.run.outcome

/-- What comes of an export that has settled. -/
def Export.outcome (e : Export β σ) (frames : Except Error Nat)
    (finalized : Rendering σ × Except Error Unit) : ExportOutcome σ where
  result := (conclude frames finalized.2).1
  output := finalized.1.output
  reports := e.session.reportCalls
  finalizeError := (conclude frames finalized.2).2

/-- What is left to be done for an export: for its frames, and then for its output. -/
def Export.remainder (e : Export β σ) : (Nat ×ₗ Nat) ×ₗ Nat :=
  toLex (e.session.remainder, e.stage.rank)

namespace ExportTask

/-- What the renderer has made of the writes of a session, and its answers. -/
def rendered (task : ExportTask α β σ) (s : Session β) :
    Rendering σ × List (Nat × Except Error Unit) :=
  task.renderer.writes ⟨0, task.output⟩ s.writeCalls

/-- A session whose frames were computed by a task, and written by its renderer. -/
structure Answers (task : ExportTask α β σ) (s : Session β) : Prop where
  computed : ∀ c ∈ s.computed, c.2 = task.encode c.1
  wrote : s.wrote <+: (task.rendered s).2

/-- The workers of an export: none if the concurrency makes no sense. -/
def workers (task : ExportTask α β σ) (concurrency : Binary64) : Nat :=
  match Run.concurrency? concurrency with
  | .ok count => min count task.total
  | .error _ => 0

/-- An export before its first worker begins. -/
def opening (task : ExportTask α β σ) (concurrency : Binary64) (aborted : Bool)
    (reportFault : Nat → Option Error) : Export β σ where
  session :=
    .opening (Run.fresh (some task.total) (task.workers concurrency) aborted reportFault)
  refusal :=
    match Run.concurrency? concurrency with
    | .ok _ => none
    | .error refusal => some refusal
  stage := .frames
  events := []

/-- What can happen next to an export. -/
inductive Step (task : ExportTask α β σ) (e : Export β σ) : Export β σ → Prop where
  /-- Something happens among the frames. -/
  | session {s : Session β} (step : e.session.Step s) (answers : task.Answers s) :
      Step task e { e with session := s, events := e.events ++ e.session.callsUntil s }
  /-- The frames have come to an end, and the renderer is finalized. -/
  | finalize {frames : Except Error Nat} (stage : e.stage = .frames)
      (ended : e.framesResult = some frames) :
      Step task e { e with stage := .finalizing frames, events := e.events ++ [.finalizeBegun] }
  /-- The renderer was finalized, successfully or not. -/
  | settle {frames : Except Error Nat} (stage : e.stage = .finalizing frames) :
      Step task e
        { e with
          stage := .settled frames (task.renderer.finish (task.rendered e.session).1)
          events := e.events ++ [.finalizeEnded] }

/-- What can come of an export. -/
def Reachable (task : ExportTask α β σ) (concurrency : Binary64) (aborted : Bool)
    (reportFault : Nat → Option Error) : Export β σ → Prop :=
  Relation.ReflTransGen task.Step (task.opening concurrency aborted reportFault)

end ExportTask

namespace Session

/-- The calls of the renderer in a session: writes that have ended, and those under way. -/
def events (s : Session β) : List RendererEvent :=
  (s.wrote.flatMap fun write => [.writeBegun write.1, .writeEnded write.1]) ++
    s.writing.map .writeBegun

theorem callsUntil_of_eq {s t : Session β} (hcalls : t.writeCalls = s.writeCalls)
    (hwrote : t.wrote = s.wrote) : s.callsUntil t = [] := by
  rw [callsUntil, hcalls, hwrote, List.drop_length, List.drop_length]
  rfl

theorem callsUntil_follow (s : Session β) (next : Run β × List (Demand β)) :
    s.callsUntil (s.follow next) =
      (next.2.filterMap Demand.write?).map fun call => .writeBegun call.1 := by
  rw [callsUntil, writeCalls_follow, List.drop_left, follow_wrote, List.drop_length]
  exact List.append_nil _

theorem events_follow (s : Session β) (next : Run β × List (Demand β)) :
    (s.follow next).events = s.events ++ s.callsUntil (s.follow next) := by
  rw [callsUntil_follow, events, events, follow_wrote, follow_writing, List.map_append,
    List.append_assoc, List.map_map]
  rfl

/-- Whatever happens adds its calls to those of the session. -/
theorem events_step {s t : Session β} (h : Writing s) (step : Step s t) :
    t.events = s.events ++ s.callsUntil t := by
  cases step with
  | @begin n => exact events_follow { s with idle := n } _
  | @turn before after turn => exact events_follow (s.note turn) _
  | computed | computeFailed | computeRaised | abort =>
    exact (List.append_nil _).symm.trans (congrArg _ (callsUntil_of_eq rfl rfl).symm)
  | @wrote frame result rounds writing =>
    -- One write is under way at most, and so it is this one that ends.
    have hlength := h.wrote_append.2
    have hwriting : s.writing = [frame] := by
      cases hs : s.writing with
      | nil => rw [hs] at writing; cases writing
      | cons first rest =>
        rw [hs, List.length_cons] at hlength
        obtain rfl := List.length_eq_zero_iff.mp (Nat.le_zero.mp (Nat.le_of_succ_le_succ hlength))
        rw [hs] at writing
        rw [List.mem_singleton.mp writing]
    have hcalls : s.callsUntil (s.endWrite frame result (.after rounds (.wrote result))) =
        [.writeEnded frame] := by
      have hsame : (s.endWrite frame result (.after rounds (.wrote result))).writeCalls =
          s.writeCalls := rfl
      rw [callsUntil, hsame, List.drop_length, endWrite_wrote, List.drop_left]
      rfl
    rw [hcalls, events, events, endWrite_wrote, endWrite_writing, hwriting]
    simp

/-- When no write is under way, every write that was begun has ended. -/
theorem events_of_quiet {s : Session β} (h : Writing s) (quiet : s.writing = []) :
    s.events = frameEvents s.writeCalls.length := by
  have hwrote := h.wrote_append.1
  rw [quiet, List.append_nil] at hwrote
  rw [events, quiet, List.map_nil, List.append_nil, frameEvents, ← hwrote, List.flatMap_map]

end Session

section Finalizing

variable {task : ExportTask α β σ} {concurrency : Binary64} {aborted : Bool}
  {reportFault : Nat → Option Error} {e e' : Export β σ}

namespace ExportTask

/-- Writes that are begun later do not change the answers to those before. -/
theorem rendered_append {s t : Session β} {more : List (Nat × β)}
    (h : t.writeCalls = s.writeCalls ++ more) : (task.rendered s).2 <+: (task.rendered t).2 := by
  rw [rendered, rendered, h, Renderer.writes_append]
  exact List.prefix_append _ _

/-- Whatever a session goes on to demand, it was answered by the task. -/
theorem Answers.follow {s : Session β} (h : task.Answers s) (next : Run β × List (Demand β)) :
    task.Answers (s.follow next) :=
  ⟨h.computed, h.wrote.trans (rendered_append (Session.writeCalls_follow s next))⟩

/-- The stage of an export fits what has become of its frames. -/
def Fits (task : ExportTask α β σ) (e : Export β σ) : Prop :=
  match e.stage with
  | .frames => True
  | .finalizing frames => e.framesResult = some frames
  | .settled frames finalized =>
    e.framesResult = some frames ∧
      finalized = task.renderer.finish (task.rendered e.session).1

/-- What holds of every export that can be reached. -/
structure Sound (task : ExportTask α β σ) (concurrency : Binary64) (aborted : Bool)
    (reportFault : Nat → Option Error) (e : Export β σ) : Prop where
  /-- The session is that of a run with the workers of the export. -/
  session : Session.Reachable
    (Run.fresh (some task.total) (task.workers concurrency) aborted reportFault) e.session
  /-- No frames are computed if the concurrency makes no sense. -/
  refusal : e.refusal = (task.opening concurrency aborted reportFault).refusal
  /-- The session was answered by the task. -/
  answers : task.Answers e.session
  /-- Finalizing comes after all writes. -/
  events : e.events = e.session.events ++ e.stage.events
  /-- The stage fits the frames. -/
  fits : task.Fits e

/-- When the frames have come to an end, nothing is left to be done for them. -/
theorem Sound.atRest (h : task.Sound concurrency aborted reportFault e)
    {frames : Except Error Nat} (ended : e.framesResult = some frames) : e.session.AtRest := by
  refine (Session.control_of_reachable h.session).atRest ?_
  have hworkers := (Session.keeps_of_steps h.session).workers
  rw [Export.framesResult, h.refusal, opening] at ended
  cases hcount : Run.concurrency? concurrency with
  | error refusal =>
    refine Nat.le_zero.mp (Nat.le_trans hworkers ?_)
    simp [workers, hcount, Run.fresh]
  | ok count =>
    rw [hcount] at ended
    -- A run with workers left has no outcome.
    by_contra hne
    rw [Run.outcome, if_neg hne] at ended
    cases ended

/-- When finalizing has begun, the frames have come to an end. -/
theorem Sound.framesResult_isSome (h : task.Sound concurrency aborted reportFault e)
    (stage : e.stage ≠ .frames) : ∃ frames, e.framesResult = some frames := by
  have hfits := h.fits
  unfold Fits at hfits
  split at hfits
  next hframes => exact absurd hframes stage
  next frames _ => exact ⟨frames, hfits⟩
  next frames _ _ => exact ⟨frames, hfits.1⟩

/-- Whatever happens among the frames, the export stays sound: once they have come to an end,
nothing happens but that an abort is asked for. -/
theorem Sound.follow (h : task.Sound concurrency aborted reportFault e) {s : Session β}
    (step : e.session.Step s) (answers : task.Answers s) :
    task.Sound concurrency aborted reportFault
      { e with session := s, events := e.events ++ e.session.callsUntil s } := by
  have hevents := Session.events_step (Session.writing_of_reachable h.session) step
  by_cases hstage : e.stage = .frames
  · refine ⟨h.session.tail step, h.refusal, answers, ?_, ?_⟩
    · rw [h.events, hevents, hstage]
      simp [Stage.events]
    · simp [Fits, hstage]
  · obtain ⟨frames, hended⟩ := h.framesResult_isSome hstage
    obtain rfl := (h.atRest hended).eq_abort_of_step step
    have hcalls : e.session.callsUntil { e.session with run := e.session.run.abort } = [] :=
      Session.callsUntil_of_eq rfl rfl
    refine ⟨h.session.tail step, h.refusal, answers, ?_, h.fits⟩
    rw [hcalls, List.append_nil]
    exact h.events

/-- Every step keeps an export sound. -/
theorem Sound.step (h : task.Sound concurrency aborted reportFault e) (step : task.Step e e') :
    task.Sound concurrency aborted reportFault e' := by
  cases step with
  | session step answers => exact h.follow step answers
  | finalize stage ended =>
    refine ⟨h.session, h.refusal, h.answers, ?_, ended⟩
    rw [h.events, stage]
    simp [Stage.events]
  | settle stage =>
    have hfits := h.fits
    simp only [Fits, stage] at hfits
    refine ⟨h.session, h.refusal, h.answers, ?_, hfits, rfl⟩
    rw [h.events, stage]
    simp [Stage.events]

/-- The invariant holds of every export that can be reached. -/
theorem sound_of_reachable (h : task.Reachable concurrency aborted reportFault e) :
    task.Sound concurrency aborted reportFault e := by
  induction h with
  | refl => exact ⟨.refl, rfl, ⟨nofun, List.nil_prefix⟩, rfl, trivial⟩
  | tail _ step ih => exact ih.step step

/-- The write under way is answered by the renderer next. -/
theorem Answers.wrote_next {s : Session β} (h : task.Answers s) (writing : Session.Writing s)
    {frame : Nat} {rest : List Nat} (busy : s.writing = frame :: rest) :
    ∃ result, s.wrote ++ [(frame, result)] <+: (task.rendered s).2 := by
  have hframes := writing.wrote_append.1
  have hrendered : (task.rendered s).2.map Prod.fst = s.writeCalls.map Prod.fst :=
    Renderer.map_fst_writes _ _ _
  obtain ⟨more, hmore⟩ := h.wrote
  rw [← hmore, writing.calls, ← hframes, busy, List.map_append,
    List.append_cancel_left_eq] at hrendered
  -- The first answer that is still to come is the one to this write.
  obtain ⟨⟨next, result⟩, later, rfl, rfl, -⟩ := List.map_eq_cons_iff.mp hrendered
  refine ⟨result, later, ?_⟩
  rw [← hmore, List.append_assoc]
  rfl

/-- If a task computes one frame more, all of them are still computed by it. -/
theorem computed_concat {computed : List (Nat × Except Error β)}
    (h : ∀ c ∈ computed, c.2 = task.encode c.1) {frame : Nat} {result : Except Error β}
    (hresult : task.encode frame = result) :
    ∀ c ∈ computed ++ [(frame, result)], c.2 = task.encode c.1 := by
  intro c hc
  rcases List.mem_append.mp hc with hc | hc
  · exact h c hc
  · rw [List.mem_singleton.mp hc, hresult]

/-- As long as a session is not at rest, something can happen in it that changes it, and that is not
an abort. -/
theorem exists_session_step {s : Session β} (control : Session.Control s)
    (writing : Session.Writing s) (htotal : s.run.total ≠ none) (h : task.Answers s)
    (busy : ¬ s.AtRest) :
    ∃ t, s.Step t ∧ task.Answers t ∧ t ≠ s ∧ t.run.aborted = s.run.aborted := by
  -- Workers begin first, then turns are taken. If there are none, a computation or a write ends.
  rcases hidle : s.idle with _ | n
  · rcases hqueue : s.run.queue with _ | ⟨turn, queue⟩
    · rcases hcomputing : s.computing with _ | ⟨frame, computing⟩
      · rcases hwriting : s.writing with _ | ⟨frame, rest⟩
        · exact absurd ⟨hidle, hcomputing, hwriting, hqueue⟩ busy
        · have hmem : frame ∈ s.writing := by simp [hwriting]
          obtain ⟨result, hresult⟩ := h.wrote_next writing hwriting
          exact ⟨_, .wrote result 0 hmem, ⟨h.computed, hresult⟩,
            Session.ne_of_effort_lt (Session.effort_endWrite hmem result 0).1, rfl⟩
      · have hmem : frame ∈ s.computing := by simp [hcomputing]
        cases hencode : task.encode frame with
        | ok value =>
          exact ⟨_, .computed value 0 hmem, ⟨computed_concat h.computed hencode, h.wrote⟩,
            Session.ne_of_effort_lt (Session.effort_endCompute hmem _ 0 _).1, rfl⟩
        | error e =>
          exact ⟨_, .computeFailed e 0 hmem, ⟨computed_concat h.computed hencode, h.wrote⟩,
            Session.ne_of_effort_lt (Session.effort_endCompute hmem _ 0 _).1, rfl⟩
    · have heffect := Run.take_cases { s.run with queue := [] ++ queue } turn
      have hdescends := Session.descends_turn control.front htotal hqueue heffect
      have hnoted : task.Answers (s.note turn) := ⟨h.computed, h.wrote⟩
      exact ⟨_, .turn hidle hqueue, hnoted.follow _, hdescends.ne, heffect.aborted_eq⟩
  · have hbegun : task.Answers { s with idle := n } := ⟨h.computed, h.wrote⟩
    exact ⟨_, .begin hidle, hbegun.follow _,
      Session.ne_of_effort_lt (Session.effort_begin hidle htotal), s.run.advance_cases.aborted_eq⟩

/-- The number of frames stays what it is. -/
theorem Sound.total_eq (h : task.Sound concurrency aborted reportFault e) :
    e.session.run.total = some task.total :=
  (Session.keeps_of_steps h.session).total

/-- An export that has not settled can go on, without an abort. -/
theorem exists_step (h : task.Sound concurrency aborted reportFault e)
    (unsettled : ∀ frames finalized, e.stage ≠ .settled frames finalized) :
    ∃ e', task.Step e e' ∧ e' ≠ e ∧ e'.session.run.aborted = e.session.run.aborted := by
  have hchanged {e' : Export β σ} (hstage : e'.stage ≠ e.stage) : e' ≠ e := fun heq =>
    hstage (congrArg Export.stage heq)
  have control := Session.control_of_reachable h.session
  cases hstage : e.stage with
  | settled frames finalized => exact absurd hstage (unsettled frames finalized)
  | finalizing frames =>
    exact ⟨_, .settle hstage, hchanged (by simp [hstage]), rfl⟩
  | frames =>
    by_cases hrest : e.session.AtRest
    · obtain ⟨frames, hended⟩ : ∃ frames, e.framesResult = some frames := by
        unfold Export.framesResult
        split
        next refusal _ => exact ⟨_, rfl⟩
        next =>
          rw [Run.outcome, if_pos (hrest.done control).2]
          exact ⟨_, rfl⟩
      exact ⟨_, .finalize hstage hended, hchanged (by simp [hstage]), rfl⟩
    · obtain ⟨t, hstep, hanswers, hne, haborted⟩ := exists_session_step control
        (Session.writing_of_reachable h.session) (Session.total_ne_none h.session) h.answers hrest
      exact ⟨_, .session hstep hanswers, fun heq => hne (congrArg Export.session heq), haborted⟩

/-- Whatever happens leaves less to do, unless it changes nothing. -/
theorem Sound.remainder_lt (h : task.Sound concurrency aborted reportFault e)
    (step : task.Step e e') (changed : e' ≠ e) : e'.remainder < e.remainder := by
  rw [Export.remainder, Export.remainder, Prod.Lex.toLex_lt_toLex]
  cases step with
  | @session s step answers =>
    refine .inl (Session.remainder_lt_of_step (Session.control_of_reachable h.session)
      (Session.total_ne_none h.session) step fun hsame => changed ?_)
    subst hsame
    rw [Session.callsUntil_of_eq rfl rfl, List.append_nil]
  | finalize stage ended => exact .inr ⟨rfl, by simp [stage, Stage.rank]⟩
  | settle stage => exact .inr ⟨rfl, by simp [stage, Stage.rank]⟩

/-- Finalizing begins once at most, after every write that was begun has ended, and nothing but its
end follows. -/
theorem Sound.finalizedLast (h : task.Sound concurrency aborted reportFault e)
    {before after : List RendererEvent} (split : e.events = before ++ .finalizeBegun :: after) :
    before = frameEvents e.session.writeCalls.length ∧
      (after = [] ∨ after = [.finalizeEnded]) := by
  have hframes : .finalizeBegun ∉ e.session.events := by
    simp [Session.events]
  have hstage : e.stage ≠ .frames := by
    intro hstage
    have hmem : .finalizeBegun ∈ e.events := by simp [split]
    rw [h.events, hstage, Stage.events, List.append_nil] at hmem
    exact hframes hmem
  obtain ⟨frames, hended⟩ := h.framesResult_isSome hstage
  have hquiet := Session.events_of_quiet (Session.writing_of_reachable h.session)
    (h.atRest hended).writing
  rw [hquiet] at hframes
  rw [h.events, hquiet] at split
  -- The first call that finalizes comes right behind the writes.
  cases hs : e.stage with
  | frames => exact absurd hs hstage
  | finalizing =>
    rw [hs, Stage.events, List.append_cons_inj_of_notMem hframes (by simp)] at split
    exact ⟨split.1.symm, .inl split.2.2.symm⟩
  | settled =>
    rw [hs, Stage.events, List.append_cons_inj_of_notMem hframes (by simp)] at split
    exact ⟨split.1.symm, .inr split.2.2.symm⟩

/-- No export goes on forever. -/
theorem not_endless (path : Nat → Export β σ)
    (h : task.Reachable concurrency aborted reportFault (path 0)) :
    ¬ ∀ n, task.Step (path n) (path (n + 1)) ∧ path (n + 1) ≠ path n := by
  intro hpath
  have hsound (n : Nat) : task.Sound concurrency aborted reportFault (path n) := by
    induction n with
    | zero => exact sound_of_reachable h
    | succ n ih => exact ih.step (hpath n).1
  obtain ⟨n, hn⟩ := WellFounded.not_rel_apply_succ (r := (· < ·)) fun n => (path n).remainder
  exact hn ((hsound n).remainder_lt (hpath n).1 (hpath n).2)

/-- How an export has settled: what came of its frames, of finalizing its output, and of both. -/
structure Settled (task : ExportTask α β σ) (concurrency : Binary64) (e : Export β σ)
    (frames : Except Error Nat) (finalized : Rendering σ × Except Error Unit)
    (result : Except Error Nat) : Prop where
  /-- The renderer was finalized once, after all writes. -/
  events :
    e.events = frameEvents e.session.writeCalls.length ++ [.finalizeBegun, .finalizeEnded]
  /-- It was finalized with everything that was written. -/
  finish : finalized = task.renderer.finish (task.rendered e.session).1
  /-- If the concurrency makes no sense, that is the error of the frames. -/
  refused : ∀ {refusal}, Run.concurrency? concurrency = .error refusal →
    frames = .error (.output refusal)
  /-- Otherwise the frames ended as their session did. -/
  ending : ∀ {count}, Run.concurrency? concurrency = .ok count →
    e.session.Ending (some task.total) frames
  /-- An error of the frames is the result, also if finalizing fails. -/
  framesError : ∀ {err}, frames = .error err → result = .error err
  /-- An error of finalizing is the result if there is none of the frames. -/
  finalizeError : ∀ {n err}, frames = .ok n → finalized.2 = .error err → result = .error err
  /-- There is no error only if all frames were written, and finalizing succeeded. -/
  complete : ∀ {n}, result = .ok n → finalized.2 = .ok () ∧ frames = .ok n ∧ n = task.total ∧
    e.session.successes = List.range task.total

/-- Exports settle as they should. -/
theorem Sound.settled (h : task.Sound concurrency aborted reportFault e)
    {frames : Except Error Nat} {finalized : Rendering σ × Except Error Unit}
    (stage : e.stage = .settled frames finalized) :
    task.Settled concurrency e frames finalized (e.outcome frames finalized).result := by
  have hfits := h.fits
  simp only [Fits, stage] at hfits
  obtain ⟨hended, hfinalized⟩ := hfits
  have hrest := h.atRest hended
  rw [Export.framesResult, h.refusal, opening] at hended
  have hrefused {refusal : OutputError} (hcount : Run.concurrency? concurrency = .error refusal) :
      frames = .error (.output refusal) := by
    rw [hcount] at hended
    exact (Option.some.inj hended).symm
  have hending {count : Nat} (hcount : Run.concurrency? concurrency = .ok count) :
      e.session.Ending (some task.total) frames := by
    have hworkers : task.workers concurrency = min count task.total := by
      simp only [workers, hcount]
    obtain ⟨result, hresult, hending⟩ := hrest.ending h.session
    rw [hworkers, Run.due_min (Session.concurrency_pos hcount)] at hending
    rw [hcount] at hended
    rwa [Option.some.inj (hended.symm.trans hresult)]
  refine ⟨?_, hfinalized, hrefused, hending, ?_, ?_, ?_⟩
  · rw [h.events, stage, Session.events_of_quiet (Session.writing_of_reachable h.session)
      hrest.writing]
    rfl
  · rintro err rfl
    rw [Export.outcome]
    cases finalized.2 <;> rfl
  · rintro n err rfl hfailed
    rw [Export.outcome, hfailed]
    rfl
  · intro n hn
    -- There is a number only if the frames did not fail, and finalizing did not.
    cases frames with
    | error err =>
      cases hf : finalized.2 <;> simp [Export.outcome, conclude, hf] at hn
    | ok written =>
      cases hf : finalized.2 with
      | error err => simp [Export.outcome, conclude, hf] at hn
      | ok done =>
        obtain rfl : written = n := by simpa [Export.outcome, conclude, hf] using hn
        cases hcount : Run.concurrency? concurrency with
        | error refusal => cases hrefused hcount
        | ok count =>
          cases hending hcount with
          | complete _ _ hall hwritten =>
            obtain rfl := Option.some.inj hall
            exact ⟨rfl, rfl, rfl, hwritten⟩

/-- What an export keeps to, whatever happens. -/
structure Dependable (task : ExportTask α β σ) (concurrency : Binary64) : Prop where
  /-- Finalizing begins once at most, after every write that was begun has ended, and nothing but
  its end follows. -/
  finalizedLast : ∀ {aborted reportFault e before after},
    task.Reachable concurrency aborted reportFault e →
      e.events = before ++ .finalizeBegun :: after →
        before = frameEvents e.session.writeCalls.length ∧
          (after = [] ∨ after = [.finalizeEnded])
  /-- As long as it has not settled, it can go on without an abort. -/
  goesOn : ∀ {aborted reportFault e}, task.Reachable concurrency aborted reportFault e →
    (∀ frames finalized, e.stage ≠ .settled frames finalized) →
      ∃ e', task.Step e e' ∧ e' ≠ e ∧ e'.session.run.aborted = e.session.run.aborted
  /-- It does not go on forever. -/
  ends : ∀ {aborted reportFault} {path : Nat → Export β σ},
    task.Reachable concurrency aborted reportFault (path 0) →
      ¬ ∀ n, task.Step (path n) (path (n + 1)) ∧ path (n + 1) ≠ path n
  /-- It settles as it should. -/
  settled : ∀ {aborted reportFault e frames finalized},
    task.Reachable concurrency aborted reportFault e → e.stage = .settled frames finalized →
      task.Settled concurrency e frames finalized (e.outcome frames finalized).result

/-- Every export keeps to this. -/
theorem dependable (task : ExportTask α β σ) (concurrency : Binary64) :
    task.Dependable concurrency where
  finalizedLast h split := (sound_of_reachable h).finalizedLast split
  goesOn h unsettled := exists_step (sound_of_reachable h) unsettled
  ends h := not_endless _ h
  settled h stage := (sound_of_reachable h).settled stage

end ExportTask

end Finalizing

end Flipbook
