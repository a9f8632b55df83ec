import Flipbook.Proofs.Output.Export

/-!
# Exports as they are performed

`exportFrames` takes the turns of its run first come, first served. It computes a frame as soon as
that is demanded, and a write ends at once, one round later, or when everything else is at rest. All
this can happen to an export, and so whatever holds of every export holds of `exportFrames`.

## Main definitions

* `Renderer.Timely`: writes wait for one round at most, or for everything else;
* `Progress.Mirrors`: frames under way are those of a session, some demands of which are open.

## Main results

* `ExportTask.reachable_of_session`: a session that a task answered is that of an export;
* `Progress.Mirrors.go`: as many turns as are allowed for bring the session to rest;
* `exportFrames_reachable`: what comes of `exportFrames` is the outcome of an export that can be
  reached.
-/

namespace Flipbook

variable {α β σ : Type}

namespace Session

/-- What has been computed, written or demanded is not forgotten. -/
theorem Step.grows {s t : Session β} (step : Step s t) :
    s.computed ⊆ t.computed ∧ s.wrote <+: t.wrote ∧ s.writeCalls <+: t.writeCalls := by
  cases step with
  | begin | turn =>
    refine ⟨List.Subset.refl _, List.prefix_rfl, ?_⟩
    rw [writeCalls_follow]
    exact List.prefix_append _ _
  | computed | computeFailed | computeRaised =>
    exact ⟨List.subset_append_left _ _, List.prefix_rfl, List.prefix_rfl⟩
  | wrote => exact ⟨List.Subset.refl _, List.prefix_append _ _, List.prefix_rfl⟩
  | abort => exact ⟨List.Subset.refl _, List.prefix_rfl, List.prefix_rfl⟩

end Session

namespace ExportTask

variable {task : ExportTask α β σ} {concurrency : Binary64} {aborted : Bool}
  {reportFault : Nat → Option Error}

/-- A session that a task answered was answered by it before. -/
theorem Answers.of_step {s t : Session β} (h : task.Answers t) (writing : Session.Writing s)
    (step : s.Step t) : task.Answers s := by
  obtain ⟨hcomputed, hwrote, more, hcalls⟩ := step.grows
  -- Both are the start of the later answers, and there are no more writes than calls.
  have hlength : s.wrote.length ≤ (task.rendered s).2.length := by
    have hframes := congrArg List.length writing.wrote_append.1
    have hrendered := congrArg List.length
      (task.renderer.map_fst_writes ⟨0, task.output⟩ s.writeCalls)
    simp only [List.length_append, List.length_map, List.length_range] at hframes hrendered
    rw [rendered, hrendered]
    omega
  exact ⟨fun c hc => h.computed c (hcomputed hc),
    List.prefix_of_prefix_length_le (hwrote.trans h.wrote) (rendered_append hcalls.symm) hlength⟩

/-- A session that a task answered is that of an export. -/
theorem reachable_of_session {s : Session β}
    (h : Session.Reachable
      (Run.fresh (some task.total) (task.workers concurrency) aborted reportFault) s)
    (answers : task.Answers s) :
    ∃ events, task.Reachable concurrency aborted reportFault
      { task.opening concurrency aborted reportFault with session := s, events := events } := by
  induction h with
  | refl => exact ⟨[], .refl⟩
  | tail hreach step ih =>
    have hbefore := answers.of_step (Session.writing_of_reachable hreach) step
    obtain ⟨events, hevents⟩ := ih hbefore
    exact ⟨_, hevents.tail (.session step answers)⟩

end ExportTask

/-- Writes wait for one round at most, or until everything else is at rest. -/
def Renderer.Timely (renderer : Renderer α β σ) : Prop :=
  ∀ output value n, (renderer.append output value).2.pace = .rounds n → n ≤ 1

/-- A frame that is not the next one does not wait at all. -/
theorem Renderer.Timely.write {renderer : Renderer α β σ} (h : renderer.Timely)
    (state : Rendering σ) (frame : Binary64) (value : β) {n : Nat}
    (pace : (renderer.write state frame value).2.pace = .rounds n) : n ≤ 1 := by
  unfold Renderer.write at pace
  split at pace
  · refine h state.output value n ?_
    dsimp only at pace
    split at pace <;> exact pace
  · cases pace
    exact Nat.zero_le 1

namespace Progress

/-- Frames under way are those of a session, some of whose demands have yet to be met. -/
structure Mirrors (task : ExportTask α β σ) (p : Progress β σ) (s : Session β)
    (demands : List (Demand β)) : Prop where
  /-- The run is that of the session. -/
  run : s.run = p.run
  /-- All workers have begun. -/
  idle : s.idle = 0
  /-- Frames were computed by the task. -/
  computed : ∀ c ∈ s.computed, c.2 = task.encode c.1
  /-- What is being computed has yet to be. -/
  computing : s.computing = demands.filterMap Demand.compute?
  /-- Frames were reported, but for those that have yet to be. -/
  reports : s.reportCalls = p.reports.reverse ++ demands.filterMap Demand.report?
  /-- Frames were written by the renderer. All answers were given, but for one that waits until
  everything else is at rest. -/
  written : ∃ (calls : List (Nat × β)) (pending : Option (Nat × Except Error Unit)),
    s.writeCalls = calls ++ demands.filterMap Demand.write? ∧
      task.renderer.writes ⟨0, task.output⟩ calls = (p.rendering, s.wrote ++ pending.toList) ∧
      s.writing = pending.toList.map Prod.fst ++ (demands.filterMap Demand.write?).map Prod.fst ∧
      pending.map Prod.snd = p.atRest

variable {task : ExportTask α β σ} {p : Progress β σ} {s : Session β} {demands : List (Demand β)}
  (stopsAt : Nat → Bool)

/-- Everything that was answered was answered by the task. -/
theorem Mirrors.answers (h : Mirrors task p s demands) : task.Answers s := by
  refine ⟨h.computed, ?_⟩
  obtain ⟨calls, pending, hcalls, hwrites, -, -⟩ := h.written
  rw [ExportTask.rendered, hcalls, Renderer.writes_append, hwrites]
  exact (List.prefix_append _ _).trans (List.prefix_append _ _)

/-- A frame that is to be computed is computed at once. -/
theorem Mirrors.compute {frame : Nat} (h : Mirrors task p s (.compute frame :: demands)) :
    ∃ t, s.Step t ∧ Mirrors task (p.meet task stopsAt (.compute frame)) t demands ∧
      t.effort + t.delay ≤ s.effort + s.delay := by
  have hcomputing : s.computing = frame :: demands.filterMap Demand.compute? := h.computing
  have hmem : frame ∈ s.computing := by simp [hcomputing]
  have herase : s.computing.erase frame = demands.filterMap Demand.compute? := by
    rw [hcomputing, List.erase_cons_head]
  have hcomputed {result : Except Error β} (hresult : task.encode frame = result) :=
    ExportTask.computed_concat h.computed hresult
  unfold meet
  dsimp only
  split
  next value hencode =>
    obtain ⟨hless, hdelay⟩ := Session.effort_endCompute hmem (.ok value) 0
      (.computed frame (.ok (some value)))
    refine ⟨_, .computed value 0 hmem, ?_, ?_⟩
    · exact ⟨by simp [h.run, Turn.after], h.idle, hcomputed hencode, herase, h.reports, h.written⟩
    · simp only [Turn.delay] at hdelay
      omega
  next e hencode =>
    obtain ⟨hless, hdelay⟩ := Session.effort_endCompute hmem (.error e) 0
      (.failed (.ofFrame frame e))
    refine ⟨_, .computeRaised e 0 hmem, ?_, ?_⟩
    · exact ⟨by simp [h.run, Turn.after], h.idle, hcomputed hencode, herase, h.reports, h.written⟩
    · simp only [Turn.delay] at hdelay
      omega

/-- A frame that is to be written is given to the renderer at once. Its answer waits for a round at
most, or else until everything is at rest. -/
theorem Mirrors.write {frame : Nat} {value : β} (timely : task.renderer.Timely)
    (writing : Session.Writing s) (h : Mirrors task p s (.write frame value :: demands)) :
    ∃ t, Relation.ReflTransGen Session.Step s t ∧
      Mirrors task (p.meet task stopsAt (.write frame value)) t demands ∧
        t.effort + t.delay ≤ s.effort + s.delay := by
  obtain ⟨calls, pending, hcalls, hwrites, hwriting, hpending⟩ := h.written
  have hcalls : s.writeCalls = (calls ++ [(frame, value)]) ++ demands.filterMap Demand.write? := by
    rw [hcalls, List.append_assoc]
    rfl
  -- There is one write at a time, and so no other answer is waited for.
  have hone := writing.wrote_append.2
  have hnone : pending = none := by
    cases pending with
    | none => rfl
    | some answer => simp [hwriting] at hone
  subst hnone
  have hwriting : s.writing = frame :: (demands.filterMap Demand.write?).map Prod.fst := hwriting
  have hmem : frame ∈ s.writing := by simp [hwriting]
  have hwrites : task.renderer.writes ⟨0, task.output⟩ calls = (p.rendering, s.wrote) := by
    simpa using hwrites
  generalize houtcome : task.renderer.write p.rendering (.ofNat frame) value = written
  obtain ⟨rendering, outcome⟩ := written
  have hwrote : task.renderer.writes ⟨0, task.output⟩ (calls ++ [(frame, value)]) =
      (rendering, s.wrote ++ [(frame, outcome.result)]) := by
    rw [Renderer.writes_append, hwrites]
    simp only [Renderer.writes, houtcome]
  -- The answer is posted with its rounds of waiting, or is kept until everything is at rest.
  unfold meet
  simp only [houtcome]
  split
  next n hpace =>
    have hn : n ≤ 1 := by
      refine timely.write p.rendering (.ofNat frame) value ?_
      rw [houtcome]
      exact hpace
    obtain ⟨hless, hdelay⟩ := Session.effort_endWrite hmem outcome.result n
    refine ⟨_, .single (.wrote outcome.result n hmem), ?_, by omega⟩
    refine ⟨by simp [h.run], h.idle, h.computed, h.computing, h.reports, ?_⟩
    refine ⟨calls ++ [(frame, value)], none, hcalls, ?_, ?_, hpending⟩
    · rw [hwrote, Session.endWrite_wrote, Option.toList_none, List.append_nil]
    · rw [Session.endWrite_writing, hwriting, List.erase_cons_head]
      rfl
  next hpace =>
    refine ⟨s, .refl, ?_, Nat.le_refl _⟩
    refine ⟨h.run, h.idle, h.computed, h.computing, h.reports, ?_⟩
    exact ⟨calls ++ [(frame, value)], some (frame, outcome.result), hcalls, hwrote, hwriting, rfl⟩

/-- A report may be answered by an abort. -/
theorem Mirrors.report {frame : Nat} (h : Mirrors task p s (.report frame :: demands)) :
    ∃ t, Relation.ReflTransGen Session.Step s t ∧
      Mirrors task (p.meet task stopsAt (.report frame)) t demands ∧
        t.effort + t.delay ≤ s.effort + s.delay := by
  have hreports : s.reportCalls =
      (frame :: p.reports).reverse ++ demands.filterMap Demand.report? := by
    rw [h.reports, List.reverse_cons, List.append_assoc]
    rfl
  unfold meet
  dsimp only
  split
  · refine ⟨_, .single .abort, ?_, Nat.le_refl _⟩
    exact ⟨by rw [h.run], h.idle, h.computed, h.computing, hreports, h.written⟩
  · refine ⟨s, .refl, ?_, Nat.le_refl _⟩
    exact ⟨h.run, h.idle, h.computed, h.computing, hreports, h.written⟩

section Run

variable {total workers : Nat} {aborted : Bool} {reportFault : Nat → Option Error}

/-- Meeting all demands of a run keeps to what can happen in its session. -/
theorem Mirrors.meetAll (timely : task.renderer.Timely)
    (reachable : Session.Reachable (Run.fresh (some total) workers aborted reportFault) s)
    (h : Mirrors task p s demands) :
    ∃ t, Relation.ReflTransGen Session.Step s t ∧
      Mirrors task (demands.foldl (meet task stopsAt) p) t [] ∧
        t.effort + t.delay ≤ s.effort + s.delay := by
  induction demands generalizing p s with
  | nil => exact ⟨s, .refl, h, Nat.le_refl _⟩
  | cons demand demands ih =>
    obtain ⟨t, hsteps, hmirrors, hle⟩ : ∃ t, Relation.ReflTransGen Session.Step s t ∧
        Mirrors task (p.meet task stopsAt demand) t demands ∧
          t.effort + t.delay ≤ s.effort + s.delay := by
      cases demand with
      | compute frame =>
        obtain ⟨t, hstep, ht⟩ := h.compute stopsAt
        exact ⟨t, .single hstep, ht⟩
      | write frame value => exact h.write stopsAt timely (Session.writing_of_reachable reachable)
      | report frame => exact h.report stopsAt
    obtain ⟨u, hrest, hmirrors, hle'⟩ := ih (reachable.trans hsteps) hmirrors
    exact ⟨u, hsteps.trans hrest, hmirrors, Nat.le_trans hle' hle⟩

/-- Taking a turn keeps to what can happen, and leaves less to do. -/
theorem Mirrors.turn
    (reachable : Session.Reachable (Run.fresh (some total) workers aborted reportFault) s)
    (h : Mirrors task p s []) {run : Run β} (step : p.run.step = some (run, demands)) :
    ∃ t, s.Step t ∧ Mirrors task { p with run } t demands ∧
      t.effort + t.delay < s.effort + s.delay := by
  rw [← h.run] at step
  obtain ⟨turn, queue, hqueue⟩ : ∃ turn queue, s.run.queue = turn :: queue := by
    cases hqueue : s.run.queue with
    | nil => simp [Run.step, hqueue] at step
    | cons turn queue => exact ⟨turn, queue, rfl⟩
  -- The run takes the first turn of the queue, where the session could take any.
  have htaken : { s.run with queue := [] ++ queue }.take turn = (run, demands) := by
    simpa [Run.step, hqueue] using step
  have hsplit : s.run.queue = [] ++ turn :: queue := hqueue
  have hdescends := Session.descends_turn (Session.control_of_reachable reachable).front
    (Session.total_ne_none reachable) hsplit (Run.take_cases _ turn)
  rw [htaken] at hdescends
  obtain ⟨calls, pending, hcalls, hwrites, hwriting, hpending⟩ := h.written
  refine ⟨_, Session.step_of_runStep h.idle hqueue step, ⟨rfl, h.idle, h.computed, ?_, ?_, ?_⟩, ?_⟩
  · rw [Session.follow_computing, Session.note_computing, h.computing]
    rfl
  · rw [Session.reportCalls_follow, Session.reportCalls_note, h.reports, List.filterMap_nil,
      List.append_nil]
  · refine ⟨calls, pending, ?_, hwrites, ?_, hpending⟩
    · rw [Session.writeCalls_follow, Session.writeCalls_note, hcalls, List.filterMap_nil,
        List.append_nil]
    · rw [Session.follow_writing, Session.note_writing, hwriting, List.filterMap_nil, List.map_nil,
        List.append_nil]
  · exact hdescends.add_lt

/-- When no turn is left, the answer that waits is given, and leaves less to do. -/
theorem Mirrors.settle (h : Mirrors task p s []) {result : Except Error Unit}
    (waits : p.atRest = some result) :
    ∃ t, s.Step t ∧ Mirrors task { p with run := p.run.post (.wrote result), atRest := none } t [] ∧
      t.effort + t.delay < s.effort + s.delay := by
  obtain ⟨calls, pending, hcalls, hwrites, hwriting, hpending⟩ := h.written
  rw [waits] at hpending
  obtain ⟨⟨frame, answer⟩, rfl, rfl⟩ := Option.map_eq_some_iff.mp hpending
  have hwriting : s.writing = [frame] := hwriting
  have hmem : frame ∈ s.writing := by simp [hwriting]
  obtain ⟨hless, hdelay⟩ := Session.effort_endWrite hmem answer 0
  refine ⟨_, .wrote answer 0 hmem, ?_, by omega⟩
  refine ⟨by simp [h.run, Turn.after], h.idle, h.computed, h.computing, h.reports, ?_⟩
  refine ⟨calls, none, hcalls, ?_, ?_, rfl⟩
  · rw [hwrites, Session.endWrite_wrote, Option.toList_none, List.append_nil]
    rfl
  · rw [Session.endWrite_writing, hwriting, List.erase_cons_head]
    rfl

/-- If there are turns enough, the session comes to rest. -/
theorem Mirrors.go (timely : task.renderer.Timely)
    (reachable : Session.Reachable (Run.fresh (some total) workers aborted reportFault) s)
    (h : Mirrors task p s []) (fuel : Nat) (enough : s.effort + s.delay < fuel) :
    ∃ t, Relation.ReflTransGen Session.Step s t ∧ Mirrors task (p.go task stopsAt fuel) t [] ∧
      t.AtRest := by
  induction fuel generalizing p s with
  | zero => exact absurd enough (Nat.not_lt_zero _)
  | succ fuel ih =>
    unfold Progress.go
    split
    next run demands hstep =>
      obtain ⟨t, hturn, hmirrors, hless⟩ := h.turn reachable hstep
      obtain ⟨u, hmeets, hmirrors, hle⟩ :=
        hmirrors.meetAll stopsAt timely (reachable.tail hturn)
      obtain ⟨v, hrest, hv⟩ :=
        ih ((reachable.tail hturn).trans hmeets) hmirrors (by omega)
      exact ⟨v, (Relation.ReflTransGen.single hturn).trans (hmeets.trans hrest), hv⟩
    next hstep =>
      have hqueue : s.run.queue = [] := by
        rw [h.run]
        cases hqueue : p.run.queue with
        | nil => rfl
        | cons turn queue => simp [Run.step, hqueue] at hstep
      -- No turn is left: either an answer still waits, or the session is at rest.
      split
      next hnone =>
        obtain ⟨calls, pending, -, -, hwriting, hpending⟩ := h.written
        rw [hnone, Option.map_eq_none_iff] at hpending
        subst hpending
        exact ⟨s, .refl, h, h.idle, h.computing, hwriting, hqueue⟩
      next result hwaits =>
        obtain ⟨t, hanswer, hmirrors, hless⟩ := h.settle hwaits
        obtain ⟨u, hrest, hu⟩ := ih (reachable.tail hanswer) hmirrors (by omega)
        exact ⟨u, (Relation.ReflTransGen.single hanswer).trans hrest, hu⟩

/-- All that a run demands, from its beginning on, brings its session to rest. -/
theorem exists_rest (timely : task.renderer.Timely) (bounded : workers ≤ task.total)
    {run : Run β}
    (launch : Run.launch (some task.total) workers aborted reportFault = (run, demands)) :
    ∃ t, Session.Reachable (Run.fresh (some task.total) workers aborted reportFault) t ∧
      t.AtRest ∧
        Mirrors task
          (Progress.go task stopsAt (20 * (task.total + 1))
            (demands.foldl (meet task stopsAt) ⟨run, ⟨0, task.output⟩, [], none⟩)) t [] := by
  have hbegun := Session.reachable_launch (β := β) (some task.total) workers aborted reportFault
  rw [launch] at hbegun
  have hmirrors : Mirrors task ⟨run, ⟨0, task.output⟩, [], none⟩
      ({ Session.opening (Run.fresh (some task.total) workers aborted reportFault) with
        idle := 0 }.follow (run, demands)) demands :=
    ⟨rfl, rfl, nofun, rfl, rfl, [], none, rfl, rfl, rfl, rfl⟩
  obtain ⟨s, hmeets, hmirrors, hle⟩ := hmirrors.meetAll stopsAt timely hbegun
  -- There are turns enough, since no turn in the queue waits yet.
  have heffort := Session.effort_le_of_reachable hbegun bounded
  have hqueue : run.queue = [] := by
    have hkept := Run.queue_startWorkers workers
      (Run.fresh (some task.total) workers aborted reportFault : Run β)
    rwa [← Run.launch, launch] at hkept
  have hdelay : ({ Session.opening (Run.fresh (some task.total) workers aborted reportFault) with
      idle := 0 }.follow (run, demands)).delay = 0 := by
    rw [Session.delay, Session.follow_run, hqueue, Turn.delays_nil]
  obtain ⟨t, hrest, hmirrors, rest⟩ := hmirrors.go stopsAt timely
    (hbegun.trans hmeets) (20 * (task.total + 1)) (by omega)
  exact ⟨t, (hbegun.trans hmeets).trans hrest, rest, hmirrors⟩

end Run

/-- When all demands are met, the output is what the renderer has made of the writes. -/
theorem Mirrors.rendered (h : Mirrors task p s []) : (task.rendered s).1 = p.rendering := by
  obtain ⟨calls, pending, hcalls, hwrites, -, -⟩ := h.written
  rw [List.filterMap_nil, List.append_nil] at hcalls
  rw [ExportTask.rendered, hcalls, hwrites]

/-- When all demands are met, the reports are those of the session. -/
theorem Mirrors.reportCalls (h : Mirrors task p s []) : s.reportCalls = p.reports.reverse := by
  rw [h.reports, List.filterMap_nil, List.append_nil]

end Progress

/-- An export whose session is at rest settles. -/
theorem ExportTask.Reachable.settle {task : ExportTask α β σ} {concurrency : Binary64}
    {aborted : Bool} {reportFault : Nat → Option Error} {e : Export β σ}
    (h : task.Reachable concurrency aborted reportFault e) (stage : e.stage = .frames)
    {frames : Except Error Nat} (ended : e.framesResult = some frames) :
    ∃ events, task.Reachable concurrency aborted reportFault
      { e with
        stage := .settled frames (task.renderer.finish (task.rendered e.session).1)
        events := events } :=
  ⟨_, (h.tail (.finalize stage ended)).tail (.settle rfl)⟩

/-- What comes of `exportFrames` is the outcome of an export that can be reached. -/
theorem exportFrames_reachable (task : ExportTask α β σ) (options : ExportOptions)
    (timely : task.renderer.Timely) :
    ∃ e frames finalized, task.Reachable options.concurrency false (fun _ => none) e ∧
      e.stage = .settled frames finalized ∧
        exportFrames task options = e.outcome frames finalized := by
  cases hcount : Run.concurrency? options.concurrency with
  | error refusal =>
    -- No frame is begun, so the export settles from its opening.
    have hended : (task.opening options.concurrency false fun _ => none).framesResult =
        some (.error (.output refusal)) := by
      simp only [ExportTask.opening, Export.framesResult, hcount]
    have hopening : task.Reachable options.concurrency false (fun _ => none)
        (task.opening options.concurrency false fun _ => none) := .refl
    obtain ⟨events, hsettled⟩ := hopening.settle rfl hended
    refine ⟨_, _, _, hsettled, rfl, ?_⟩
    have hframes : renderFrames task options =
        ⟨.error (.output refusal), ⟨0, task.output⟩, []⟩ := by
      simp [renderFrames, Run.start, hcount, bind, Except.bind]
    rw [exportFrames, hframes]
    rfl
  | ok count =>
    have hworkers : task.workers options.concurrency = min count task.total := by
      simp only [ExportTask.workers, hcount]
    generalize hlaunch : (Run.launch (some task.total) (min count task.total) false
      fun _ => none : Run β × List (Demand β)) = launched
    obtain ⟨run, demands⟩ := launched
    -- Meeting all demands is one way for the session to come to rest.
    obtain ⟨t, hreachable, rest, hmirrors⟩ := Progress.exists_rest options.stopsAt
      timely (Nat.min_le_right count task.total) hlaunch
    rw [← hworkers] at hreachable
    obtain ⟨result, hresult, -⟩ := rest.ending hreachable
    obtain ⟨events, hexport⟩ := ExportTask.reachable_of_session hreachable hmirrors.answers
    have hended : ({ task.opening options.concurrency false fun _ => none with
        session := t, events := events } : Export β σ).framesResult = some result := by
      simp only [Export.framesResult, ExportTask.opening, hcount, hresult]
    obtain ⟨events, hsettled⟩ := hexport.settle rfl hended
    refine ⟨_, _, _, hsettled, rfl, ?_⟩
    have hstart : Run.start task.total options.concurrency false (fun _ => none) =
        .ok (run, demands) := by
      simp [Run.start, hcount, hlaunch, bind, Except.bind]
    rw [hmirrors.run] at hresult
    rw [Export.outcome, exportFrames, renderFrames, hstart]
    dsimp only
    rw [hresult, hmirrors.reportCalls, hmirrors.rendered]
    rfl

end Flipbook
