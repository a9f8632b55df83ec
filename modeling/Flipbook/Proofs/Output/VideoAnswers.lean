import Mathlib.Data.List.Induction
import Flipbook.Proofs.Output.VideoHistory

/-!
# Answers of a video

Whether the calls of a video succeed, over every interleaving of calls and events. Each call waits
or is answered once, and what it waits for, or why it was answered as it was, is told by the
history: that is the invariant `Accounted`, which each step keeps.

A finalization succeeds exactly when the process has ended with the code zero, and nothing has
failed by the time the call goes on. Refusals name the file of the video, with one exception: an
append that waits for room while the pipe breaks reports the failure as the system words it.

## Main definitions

* `BrokeWhileWaiting`: the pipe broke while an append was waiting for room.
* `Accounted`: every call of a history has its place, and a reason to be there.

## Main results

* `accounted_videoHistory`: every history accounts for its calls.
* `video_streams_accepted_frames`: what the process gets, and when a finalization succeeds.
* `refusal_names_output_iff`: which refusals name the file of the video.
-/

namespace Flipbook

/-! ### Association lists -/

section Lookup

variable {α : Type} {pending : List (Nat × α)} {call : Nat} {value : α}

/-- What is listed under a number that occurs once is found. -/
private theorem lookup_of_mem (hnodup : (pending.map Prod.fst).Nodup)
    (hmem : (call, value) ∈ pending) : pending.lookup call = some value := by
  obtain ⟨front, back, rfl⟩ := List.append_of_mem hmem
  refine List.lookup_eq_some_iff.mpr ⟨front, back, rfl, ?_⟩
  simp only [List.map_append, List.map_cons, List.nodup_append] at hnodup
  intro other hother
  simpa using (hnodup.2.2 other.1 (List.mem_map_of_mem hother) call (by simp)).symm

/-- What is found is listed. -/
private theorem mem_of_lookup (h : pending.lookup call = some value) : (call, value) ∈ pending := by
  obtain ⟨front, back, rfl, -⟩ := List.lookup_eq_some_iff.mp h
  simp

/-- What is left of a list without a number that occurs once. -/
private theorem filter_perm_of_mem (hnodup : (pending.map Prod.fst).Nodup)
    (hmem : (call, value) ∈ pending) :
    (pending.map Prod.fst).Perm
      (call :: (pending.filter fun other => other.1 ≠ call).map Prod.fst) := by
  have herase : (pending.filter fun other => other.1 ≠ call).map Prod.fst =
      (pending.map Prod.fst).erase call := by
    rw [hnodup.erase_eq_filter, List.filter_map]
    congr 1
    exact List.filter_congr fun other _ => by simp [bne, ← Bool.beq_eq_decide_eq]
  rw [herase]
  exact List.perm_cons_erase (List.mem_map_of_mem hmem)

/-- What is listed with one entry more was listed before, or is that entry. -/
private theorem mem_concat_pair {other : Nat} {last : α} :
    (call, value) ∈ pending ++ [(other, last)] ↔
      (call, value) ∈ pending ∨ call = other ∧ value = last := by
  simp only [List.mem_append, List.mem_singleton, Prod.mk.injEq]

end Lookup

/-! ### What one step does to the calls -/

/-- What a step does to the calls: to those that wait, and to those that are answered. -/
inductive TakesCalls (history : VideoHistory) :
    VideoStep → List (Nat × Waiting) → List Settled → Prop
  /-- An append is answered at once. -/
  | answered (frame : Raster.Image) (answer : Except Error Unit)
      (hanswer : answer = .ok () ∨ answer = history.encoder.refusal frame) :
      TakesCalls history (.append frame) history.encoder.pending
        (history.settled ++ [(history.calls, answer)])
  /-- An append waits for room, or need not wait for it after the end of the process. -/
  | waitsForRoom (frame : Raster.Image) (waiting : Waiting)
      (hwaiting : waiting = .forRoom ∨ waiting = .roomFound) :
      TakesCalls history (.append frame)
        (history.encoder.pending ++ [(history.calls, waiting)]) history.settled
  /-- A finalization waits for the end of the process. -/
  | waitsForEnd :
      TakesCalls history .finalize
        (history.encoder.pending ++ [(history.calls,
          match history.encoder.exit with
          | some code => .processEnded code
          | none => .forEnd)]) history.settled
  /-- Something happens for which calls may have waited. -/
  | noticed (event : ProcessEvent) :
      TakesCalls history (.event event)
        (history.encoder.pending.map fun (call, waiting) => (call, waiting.after event))
        history.settled
  /-- A call goes on, and is answered. -/
  | resumed (call : Nat) (waiting : Waiting) (answer : Except Error Unit)
      (hlookup : history.encoder.pending.lookup call = some waiting)
      (hanswer : history.encoder.answer? waiting = some answer) :
      TakesCalls history (.resume call)
        (history.encoder.pending.filter fun other => other.1 ≠ call)
        (history.settled ++ [(call, answer)])
  /-- A call cannot go on. -/
  | stuck (call : Nat)
      (hstuck : ∀ waiting, history.encoder.pending.lookup call = some waiting →
        history.encoder.answer? waiting = none) :
      TakesCalls history (.resume call) history.encoder.pending history.settled
  /-- The pipe gets room or loses it, which only concerns later calls. -/
  | room (accepting : Bool) :
      TakesCalls history (.room accepting) history.encoder.pending history.settled

/-- Every step does one of these things. -/
theorem takesCalls_take (history : VideoHistory) (step : VideoStep) :
    TakesCalls history step (history.take step).encoder.pending (history.take step).settled := by
  cases step with
  | append frame =>
    -- An append is refused, is done at once, or waits.
    obtain ⟨e, hrefusal, h⟩ | ⟨-, h⟩ | ⟨-, waiting, hwaiting, h⟩ :=
      history.encoder.beginAppend_cases history.calls frame <;>
      simp only [VideoHistory.take, VideoHistory.extend, VideoEncoder.take, h, List.append_nil]
    · exact .answered frame _ (.inr hrefusal.symm)
    · exact .answered frame _ (.inl rfl)
    · exact .waitsForRoom frame waiting hwaiting
  | finalize =>
    have hpending :
        (history.encoder.beginFinalize history.calls).pending =
          history.encoder.pending ++ [(history.calls,
            match history.encoder.exit with
            | some code => .processEnded code
            | none => .forEnd)] := by
      simp only [VideoEncoder.beginFinalize, VideoEncoder.wait]
      split <;> rfl
    simp only [VideoHistory.take, VideoHistory.extend, VideoEncoder.take, hpending,
      List.append_nil]
    exact .waitsForEnd
  | room accepting =>
    simp only [VideoHistory.take, VideoHistory.extend, VideoEncoder.take, List.append_nil]
    exact .room accepting
  | event event =>
    simp only [VideoHistory.take, VideoHistory.extend, VideoEncoder.take, List.append_nil]
    exact .noticed event
  | resume call =>
    obtain ⟨waiting, answer, hlookup, hanswer, h⟩ | ⟨hstuck, h⟩ :=
      history.encoder.resume_cases call <;>
      simp only [VideoHistory.take, VideoHistory.extend, VideoEncoder.take, h, List.append_nil]
    · exact .resumed call waiting answer hlookup hanswer
    · exact .stuck call hstuck

/-! ### What answers say -/

/-- A failure is one of the output, and names the file of the video. -/
def NamesOutput (options : VideoOptions) (e : Error) : Prop :=
  ∃ cause : OutputError, e = .output cause ∧ cause.path? = some options.outputPath

namespace VideoEncoder

variable {encoder : VideoEncoder} {e : Error}

/-- A recorded failure is reported with the file of the video. -/
theorem namesOutput_of_checkFailure (h : encoder.checkFailure = .error e) :
    NamesOutput encoder.options e := by
  unfold checkFailure at h
  split at h
  · exact ⟨_, (Except.error.inj h).symm, rfl⟩
  · cases h

/-- A frame is refused with the file of the video. -/
theorem namesOutput_of_refusal {frame : Raster.Image} (h : encoder.refusal frame = .error e) :
    NamesOutput encoder.options e := by
  cases hfailure : encoder.checkFailure with
  | error cause =>
    obtain rfl : cause = e := by simpa [refusal, hfailure, bind, Except.bind] using h
    exact namesOutput_of_checkFailure hfailure
  | ok _ =>
    simp only [refusal, hfailure, bind, Except.bind] at h
    split at h
    · exact ⟨_, (Except.error.inj h).symm, rfl⟩
    · split at h
      · cases h
      · exact ⟨_, (Except.error.inj h).symm, rfl⟩

/-- A finalization fails with the file of the video. -/
theorem namesOutput_of_finished {code : Option Binary64} (h : encoder.finished code = .error e) :
    NamesOutput encoder.options e := by
  cases hfailure : encoder.checkFailure with
  | error cause =>
    obtain rfl : cause = e := by simpa [finished, hfailure, bind, Except.bind] using h
    exact namesOutput_of_checkFailure hfailure
  | ok _ =>
    simp only [finished, hfailure, bind, Except.bind] at h
    split at h
    · cases h
    · exact ⟨_, (Except.error.inj h).symm, rfl⟩

/-- A finalization succeeds if nothing has failed and the process ended with the code zero. -/
theorem finished_eq_ok_iff (code : Option Binary64) :
    encoder.finished code = .ok () ↔ encoder.failure = none ∧ code = some 0 := by
  cases hfailure : encoder.failure <;>
    simp [finished, checkFailure, hfailure, bind, Except.bind]

end VideoEncoder

/-! ### Why calls wait, and why they were answered -/

section Reasons

variable (options : VideoOptions) (steps : List VideoStep) (call : Nat)

/-- The pipe broke while a call was waiting for room in it. -/
def BrokeWhileWaiting (reason : String) : Prop :=
  ∃ before, before ++ [.event (.pipeError reason)] <+: steps ∧
    (call, .forRoom) ∈ (videoHistory options before).encoder.pending

/-- What a call waits for, or has come to, is told by the history. -/
def WaitsRightly : Waiting → Prop
  | .forRoom | .roomFound => ∃ frame, Called steps call (.append frame)
  | .pipeBroken reason =>
    (∃ frame, Called steps call (.append frame)) ∧ BrokeWhileWaiting options steps call reason
  | .forEnd => Called steps call .finalize ∧ firstExit steps = none
  | .processEnded code => Called steps call .finalize ∧ firstExit steps = some code

/-- An append fails with the file of the video, or with the reason for which the pipe broke while
it was waiting. -/
def AppendAnswered (answer : Except Error Unit) : Prop :=
  (∃ frame, Called steps call (.append frame)) ∧
    ((∀ e, answer = .error e → NamesOutput options e) ∨
      ∃ reason, BrokeWhileWaiting options steps call reason ∧ answer = .error (.system reason))

/-- A finalization is answered when it goes on after the end of the process, by what is recorded
then. -/
def FinalizeAnswered (answer : Except Error Unit) : Prop :=
  ∃ before code, before ++ [.resume call] <+: steps ∧ Called before call .finalize ∧
    firstExit before = some code ∧ answer = (videoHistory options before).encoder.finished code

/-- A history accounts for its calls: each has its place, among those that wait or those that were
answered, and what is known of it there is told by the history. -/
structure Accounted : Prop where
  /-- Each call waits, or was answered once. -/
  places :
    ((videoHistory options steps).encoder.pending.map Prod.fst ++
      (videoHistory options steps).settled.map Prod.fst).Perm
        (List.range (videoHistory options steps).calls)
  waiting : ∀ call waiting, (call, waiting) ∈ (videoHistory options steps).encoder.pending →
    WaitsRightly options steps call waiting
  answered : ∀ call answer, (call, answer) ∈ (videoHistory options steps).settled →
    AppendAnswered options steps call answer ∨ FinalizeAnswered options steps call answer
  /-- Calls that were waiting for room when the pipe broke are told so. -/
  broken : ∀ call reason, BrokeWhileWaiting options steps call reason →
    (call, .pipeBroken reason) ∈ (videoHistory options steps).encoder.pending ∨
      (call, .error (.system reason)) ∈ (videoHistory options steps).settled

variable {options steps call} {later : List VideoStep}

theorem BrokeWhileWaiting.of_init {reason : String} (hinit : steps <+: later)
    (h : BrokeWhileWaiting options steps call reason) :
    BrokeWhileWaiting options later call reason :=
  h.imp fun _ hbefore => ⟨hbefore.1.trans hinit, hbefore.2⟩

theorem AppendAnswered.of_init {answer : Except Error Unit} (hinit : steps <+: later)
    (h : AppendAnswered options steps call answer) : AppendAnswered options later call answer :=
  ⟨h.1.imp fun _ => Called.of_init hinit,
    h.2.imp_right fun ⟨reason, hbroke, hanswer⟩ =>
      ⟨reason, hbroke.of_init hinit, hanswer⟩⟩

theorem FinalizeAnswered.of_init {answer : Except Error Unit} (hinit : steps <+: later)
    (h : FinalizeAnswered options steps call answer) :
    FinalizeAnswered options later call answer := by
  obtain ⟨before, code, hbefore, hrest⟩ := h
  exact ⟨before, code, hbefore.trans hinit, hrest⟩

/-- A call goes on waiting rightly, unless the process ends for which it waits. -/
theorem WaitsRightly.concat {waiting : Waiting} {step : VideoStep} (hexit : step.exit? = none)
    (h : WaitsRightly options steps call waiting) :
    WaitsRightly options (steps ++ [step]) call waiting := by
  have hinit : steps <+: steps ++ [step] := List.prefix_append _ _
  cases waiting with
  | forRoom | roomFound => exact h.imp fun _ => Called.of_init hinit
  | pipeBroken reason =>
    exact ⟨h.1.imp fun _ => Called.of_init hinit, h.2.of_init hinit⟩
  | forEnd => exact ⟨h.1.of_init hinit, by simp [h.2, hexit]⟩
  | processEnded code => exact ⟨h.1.of_init hinit, by simp [h.2]⟩

/-- After an event, a call has rightly come to what the event means for it. -/
theorem WaitsRightly.after {waiting : Waiting} (event : ProcessEvent)
    (hmem : (call, waiting) ∈ (videoHistory options steps).encoder.pending)
    (h : WaitsRightly options steps call waiting) :
    WaitsRightly options (steps ++ [.event event]) call (waiting.after event) := by
  have hinit : steps <+: steps ++ [.event event] := List.prefix_append _ _
  cases waiting with
  | forRoom =>
    -- A pipe that breaks is told from room found: it breaks now, while the call waits.
    have hcalled := h.imp fun _ => Called.of_init hinit
    cases event with
    | pipeError reason => exact ⟨hcalled, steps, List.prefix_rfl, hmem⟩
    | drain | message text | processError reason | close code => exact hcalled
  | forEnd =>
    have hcalled := h.1.of_init hinit
    cases hexit : event.exit? <;>
      simp [Waiting.after, WaitsRightly, hexit, hcalled, h.2, VideoStep.exit?]
  | roomFound => exact h.imp fun _ => Called.of_init hinit
  | pipeBroken reason =>
    exact ⟨h.1.imp fun _ => Called.of_init hinit, h.2.of_init hinit⟩
  | processEnded code => exact ⟨h.1.of_init hinit, by simp [h.2]⟩

/-- A pipe that broke while a call was waiting broke with the last step, or before. -/
theorem brokeWhileWaiting_concat {step : VideoStep} {reason : String} :
    BrokeWhileWaiting options (steps ++ [step]) call reason ↔
      BrokeWhileWaiting options steps call reason ∨
        (step = .event (.pipeError reason) ∧
          (call, .forRoom) ∈ (videoHistory options steps).encoder.pending) := by
  constructor
  · rintro ⟨before, hbefore, hmem⟩
    obtain heq | hinit := List.prefix_concat_iff.mp hbefore
    · obtain ⟨rfl, hstep⟩ := List.append_inj' heq rfl
      exact .inr ⟨(List.singleton_inj.mp hstep).symm, hmem⟩
    · exact .inl ⟨before, hinit, hmem⟩
  · rintro (h | ⟨rfl, hmem⟩)
    · exact h.of_init (List.prefix_append _ _)
    · exact ⟨steps, List.prefix_rfl, hmem⟩

/-- No call waits that was answered, and none is answered twice. -/
theorem Accounted.nodup (h : Accounted options steps) :
    ((videoHistory options steps).encoder.pending.map Prod.fst ++
      (videoHistory options steps).settled.map Prod.fst).Nodup :=
  h.places.nodup_iff.mpr List.nodup_range

theorem Accounted.nodup_pending (h : Accounted options steps) :
    ((videoHistory options steps).encoder.pending.map Prod.fst).Nodup :=
  (List.nodup_append.mp h.nodup).1

end Reasons

/-! ### Each step keeps the account -/

section Step

variable {options : VideoOptions} {steps : List VideoStep} {step : VideoStep}
  {pending : List (Nat × Waiting)} {settled : List Settled}

/-- A new call that waits takes the next place. -/
private theorem perm_insert_next {waits answered : List Nat} {number : Nat}
    (h : (waits ++ answered).Perm (List.range number)) :
    (waits ++ number :: answered).Perm (List.range (number + 1)) := by
  rw [List.range_succ]
  exact (List.perm_middle.trans (h.cons number)).trans (List.perm_append_singleton _ _).symm

/-- After a step, each call waits, or was answered once. -/
theorem TakesCalls.keeps_places {history : VideoHistory}
    (h : TakesCalls history step pending settled)
    (hplaces : (history.encoder.pending.map Prod.fst ++ history.settled.map Prod.fst).Perm
      (List.range history.calls)) :
    (pending.map Prod.fst ++ settled.map Prod.fst).Perm
      (List.range (if step.isCall then history.calls + 1 else history.calls)) := by
  cases h with
  | answered frame answer _ =>
    simpa [VideoStep.isCall, List.range_succ, ← List.append_assoc] using
      hplaces.append_right [history.calls]
  | waitsForRoom frame waiting _ => simpa [VideoStep.isCall] using perm_insert_next hplaces
  | waitsForEnd => simpa [VideoStep.isCall] using perm_insert_next hplaces
  | noticed event => simpa [VideoStep.isCall, Function.comp_def] using hplaces
  | resumed call waiting answer hlookup _ =>
    -- The call leaves those that wait for those that were answered.
    have hnodup := (List.nodup_append.mp (hplaces.nodup_iff.mpr List.nodup_range)).1
    have hleft := (filter_perm_of_mem hnodup (mem_of_lookup hlookup)).symm
    simpa [VideoStep.isCall] using
      ((List.perm_append_singleton call _).trans (hleft.append_right _)).trans hplaces
  | stuck call _ => exact hplaces
  | room accepting => exact hplaces

/-- After a step, calls still wait rightly. -/
theorem TakesCalls.keeps_waiting (h : TakesCalls (videoHistory options steps) step pending settled)
    (haccounted : Accounted options steps) {call : Nat} {waiting : Waiting}
    (hmem : (call, waiting) ∈ pending) :
    WaitsRightly options (steps ++ [step]) call waiting := by
  cases h with
  | answered frame answer _ => exact (haccounted.waiting _ _ hmem).concat rfl
  | waitsForRoom frame other hother =>
    obtain hmem | ⟨rfl, rfl⟩ := mem_concat_pair.mp hmem
    · exact (haccounted.waiting _ _ hmem).concat rfl
    · obtain rfl | rfl := hother <;> exact ⟨frame, called_concat options steps rfl⟩
  | waitsForEnd =>
    obtain hmem | ⟨rfl, rfl⟩ := mem_concat_pair.mp hmem
    · exact (haccounted.waiting _ _ hmem).concat rfl
    · have hcalled := called_concat options steps (rfl : VideoStep.finalize.isCall = true)
      rw [exit_videoHistory]
      cases hexit : firstExit steps <;>
        exact ⟨hcalled, by simp [hexit, VideoStep.exit?]⟩
  | noticed event =>
    obtain ⟨⟨other, before⟩, hother, ⟨⟩⟩ := List.mem_map.mp hmem
    exact (haccounted.waiting _ _ hother).after event hother
  | resumed call other answer _ _ =>
    exact (haccounted.waiting _ _ (List.mem_filter.mp hmem).1).concat rfl
  | stuck call _ => exact (haccounted.waiting _ _ hmem).concat rfl
  | room accepting => exact (haccounted.waiting _ _ hmem).concat rfl

/-- A call that goes on is answered for what it came to. -/
private theorem answered_of_answer? {call : Nat} {waiting : Waiting} {answer : Except Error Unit}
    (hwaiting : WaitsRightly options steps call waiting)
    (hanswer : (videoHistory options steps).encoder.answer? waiting = some answer) :
    AppendAnswered options (steps ++ [.resume call]) call answer ∨
      FinalizeAnswered options (steps ++ [.resume call]) call answer := by
  have hinit : steps <+: steps ++ [.resume call] := List.prefix_append _ _
  cases waiting with
  | forRoom | forEnd => cases hanswer
  | roomFound =>
    obtain rfl := Option.some.inj hanswer
    refine .inl ⟨hwaiting.imp fun _ => Called.of_init hinit, .inl fun e he => ?_⟩
    simpa using VideoEncoder.namesOutput_of_checkFailure he
  | pipeBroken reason =>
    obtain rfl := Option.some.inj hanswer
    exact .inl ⟨hwaiting.1.imp fun _ => Called.of_init hinit,
      .inr ⟨reason, hwaiting.2.of_init hinit, rfl⟩⟩
  | processEnded code =>
    obtain rfl := Option.some.inj hanswer
    exact .inr ⟨steps, code, List.prefix_rfl, hwaiting.1, hwaiting.2, rfl⟩

/-- After a step, answers are still as the history tells. -/
theorem TakesCalls.keeps_answered (h : TakesCalls (videoHistory options steps) step pending settled)
    (haccounted : Accounted options steps) {call : Nat} {answer : Except Error Unit}
    (hmem : (call, answer) ∈ settled) :
    AppendAnswered options (steps ++ [step]) call answer ∨
      FinalizeAnswered options (steps ++ [step]) call answer := by
  have hinit : steps <+: steps ++ [step] := List.prefix_append _ _
  have hold (hmem : (call, answer) ∈ (videoHistory options steps).settled) :=
    (haccounted.answered _ _ hmem).imp (AppendAnswered.of_init hinit)
      (FinalizeAnswered.of_init hinit)
  cases h with
  | answered frame other hother =>
    obtain hmem | ⟨rfl, rfl⟩ := mem_concat_pair.mp hmem
    · exact hold hmem
    · refine .inl ⟨⟨frame, called_concat options steps rfl⟩, .inl fun e he => ?_⟩
      obtain hok | hrefusal := hother
      · cases hok.symm.trans he
      · simpa using VideoEncoder.namesOutput_of_refusal (hrefusal.symm.trans he)
  | resumed other waiting given hlookup hanswer =>
    obtain hmem | ⟨rfl, rfl⟩ := mem_concat_pair.mp hmem
    · exact hold hmem
    · exact answered_of_answer? (haccounted.waiting _ _ (mem_of_lookup hlookup)) hanswer
  | waitsForRoom frame waiting _ => exact hold hmem
  | waitsForEnd => exact hold hmem
  | noticed event => exact hold hmem
  | stuck call _ => exact hold hmem
  | room accepting => exact hold hmem

/-- After a step, calls that were waiting for room when the pipe broke are still told so. -/
theorem TakesCalls.keeps_broken (h : TakesCalls (videoHistory options steps) step pending settled)
    (haccounted : Accounted options steps) {call : Nat} {reason : String}
    (hbroke : BrokeWhileWaiting options (steps ++ [step]) call reason) :
    (call, .pipeBroken reason) ∈ pending ∨ (call, .error (.system reason)) ∈ settled := by
  obtain hbroke | ⟨rfl, hroom⟩ := brokeWhileWaiting_concat.mp hbroke
  · -- The pipe broke earlier: what was told then stays, until the call goes on with it.
    have hold := haccounted.broken _ _ hbroke
    cases h with
    | answered frame answer _ => exact hold.imp_right (List.mem_append_left _)
    | waitsForRoom frame waiting _ => exact hold.imp_left (List.mem_append_left _)
    | waitsForEnd => exact hold.imp_left (List.mem_append_left _)
    | noticed event => exact hold.imp_left fun h => List.mem_map.mpr ⟨_, h, rfl⟩
    | resumed other waiting answer hlookup hanswer =>
      refine hold.elim (fun hmem => ?_) fun hmem => .inr (List.mem_append_left _ hmem)
      obtain rfl | hne := eq_or_ne call other
      · have hfound := lookup_of_mem haccounted.nodup_pending hmem
        obtain rfl := Option.some.inj (hlookup.symm.trans hfound)
        obtain rfl := Option.some.inj hanswer
        exact .inr (List.mem_append_right _ (List.mem_singleton_self _))
      · exact .inl (List.mem_filter.mpr ⟨hmem, by simpa using hne⟩)
    | stuck other _ => exact hold
    | room accepting => exact hold
  · -- The pipe breaks with this step, for a call that is waiting.
    cases h with
    | noticed => exact .inl (List.mem_map.mpr ⟨_, hroom, rfl⟩)

/-- A history accounts for one step more. -/
theorem Accounted.concat (h : Accounted options steps) (step : VideoStep) :
    Accounted options (steps ++ [step]) := by
  have hstep := takesCalls_take (videoHistory options steps) step
  rw [← videoHistory_concat] at hstep
  exact
    { places := by
        have hcalls : (videoHistory options (steps ++ [step])).calls =
            if step.isCall then (videoHistory options steps).calls + 1
            else (videoHistory options steps).calls := by
          rw [videoHistory_concat]
          rfl
        rw [hcalls]
        exact hstep.keeps_places h.places
      waiting := fun _ _ => hstep.keeps_waiting h
      answered := fun _ _ => hstep.keeps_answered h
      broken := fun _ _ => hstep.keeps_broken h }

end Step

/-- Every history accounts for its calls. -/
theorem accounted_videoHistory (options : VideoOptions) (steps : List VideoStep) :
    Accounted options steps := by
  induction steps using List.reverseRecOn with
  | nil =>
    exact
      { places := .refl _
        waiting := nofun
        answered := nofun
        broken := by simp [BrokeWhileWaiting] }
  | append_singleton steps step ih => exact ih.concat step

/-! ### Answers over a whole history -/

section Answers

variable (options : VideoOptions) {before steps : List VideoStep} {call : Nat}

/-- Answers are for good. -/
theorem settled_kept (h : before <+: steps) :
    (videoHistory options before).settled <+: (videoHistory options steps).settled := by
  obtain ⟨after, rfl⟩ := h
  induction after using List.reverseRecOn with
  | nil => simp
  | append_singleton after step ih =>
    rw [← List.append_assoc, videoHistory_concat]
    exact ih.trans (List.prefix_append _ _)

/-- A call is answered once. -/
theorem settled_unique {answer other : Except Error Unit}
    (h : (call, answer) ∈ (videoHistory options steps).settled)
    (hother : (call, other) ∈ (videoHistory options steps).settled) : answer = other := by
  have hnodup := (List.nodup_append.mp (accounted_videoHistory options steps).nodup).2.1
  -- Both are what is found under the number of the call.
  exact Option.some.inj ((lookup_of_mem hnodup h).symm.trans (lookup_of_mem hnodup hother))

/-- A call waits or was answered. -/
theorem Called.pending_or_settled {step : VideoStep} (h : Called steps call step) :
    (∃ waiting, (call, waiting) ∈ (videoHistory options steps).encoder.pending) ∨
      ∃ answer, (call, answer) ∈ (videoHistory options steps).settled := by
  obtain ⟨hlt, -⟩ := List.getElem?_eq_some_iff.mp h
  have hplace := (accounted_videoHistory options steps).places.mem_iff.mpr
    (List.mem_range.mpr ((calls_videoHistory options steps).symm ▸ hlt))
  simpa using hplace

/-- A finalization that goes on after the end of the process is answered. -/
theorem exists_answer_of_resume {code : Option Binary64}
    (hcalled : Called before call .finalize) (hexit : firstExit before = some code) :
    ∃ answer, (call, answer) ∈ (videoHistory options (before ++ [.resume call])).settled := by
  obtain ⟨waiting, hmem⟩ | ⟨answer, hmem⟩ := hcalled.pending_or_settled options
  · -- It still waits, so it is ready: it knows how the process ended.
    have haccounted := accounted_videoHistory options before
    have hlookup := lookup_of_mem haccounted.nodup_pending hmem
    have hwaiting := haccounted.waiting _ _ hmem
    have hready : waiting = .processEnded code := by
      cases waiting with
      | forRoom | roomFound =>
        obtain ⟨frame, happend⟩ := hwaiting
        cases hcalled.unique happend
      | pipeBroken reason =>
        obtain ⟨⟨frame, happend⟩, -⟩ := hwaiting
        cases hcalled.unique happend
      | forEnd => cases hexit.symm.trans hwaiting.2
      | processEnded other => rw [Option.some.inj (hwaiting.2.symm.trans hexit)]
    subst hready
    refine ⟨(videoHistory options before).encoder.finished code, ?_⟩
    simp [videoHistory_concat, VideoHistory.take, VideoHistory.extend, VideoEncoder.take,
      VideoEncoder.resume, hlookup, VideoEncoder.answer?]
  · exact ⟨answer, (settled_kept options (List.prefix_append _ _)).mem hmem⟩

/-- A finalization is answered by what is recorded when it goes on. -/
theorem finalizeAnswered_of_called {answer : Except Error Unit}
    (hcalled : Called steps call .finalize)
    (hmem : (call, answer) ∈ (videoHistory options steps).settled) :
    FinalizeAnswered options steps call answer := by
  obtain ⟨⟨frame, happend⟩, -⟩ | h := (accounted_videoHistory options steps).answered _ _ hmem
  · cases hcalled.unique happend
  · exact h

/-- A finalization succeeds exactly when it goes on after the process has ended with the code zero,
and nothing has failed by then. -/
theorem finalize_ok_iff (hcalled : Called steps call .finalize) :
    (call, .ok ()) ∈ (videoHistory options steps).settled ↔
      ∃ before, before ++ [.resume call] <+: steps ∧ Called before call .finalize ∧
        firstExit before = some (some 0) ∧ firstFailure before = none := by
  constructor
  · intro hmem
    obtain ⟨before, code, hinit, hbefore, hexit, hanswer⟩ :=
      finalizeAnswered_of_called options hcalled hmem
    obtain ⟨hfailure, rfl⟩ := (VideoEncoder.finished_eq_ok_iff code).mp hanswer.symm
    exact ⟨before, hinit, hbefore, hexit, by simpa using hfailure⟩
  · rintro ⟨before, hinit, hbefore, hexit, hfailure⟩
    obtain ⟨answer, hmem⟩ := exists_answer_of_resume options hbefore hexit
    -- It may have been answered earlier, but by the same end, and with nothing failed either.
    obtain ⟨earlier, code, hearlier, -, hcode, rfl⟩ :=
      finalizeAnswered_of_called options (hbefore.of_init (List.prefix_append _ _)) hmem
    have hle : earlier <+: before := by
      obtain heq | h := List.prefix_concat_iff.mp hearlier
      · exact (List.append_inj' heq rfl).1 ▸ List.prefix_rfl
      · exact (List.prefix_append _ _).trans h
    have hzero := Option.some.inj ((firstExit_eq_of_init hle hcode).symm.trans hexit)
    have hok := (VideoEncoder.finished_eq_ok_iff code).mpr
      ⟨(failure_videoHistory options earlier).trans (firstFailure_eq_none_of_init hle hfailure),
        hzero⟩
    exact (settled_kept options hinit).mem (hok ▸ hmem)

/-- The process gets the accepted frames in their order, and the end of its input once, after them,
when the video is first finalized. A finalization succeeds exactly when it goes on after the process
has first ended with the code zero, and nothing has failed by then. -/
theorem video_streams_accepted_frames (steps : List VideoStep) :
    (videoHistory options steps).encoder.pipe =
        (acceptedFrames options steps).map .write ++
          (if .finalize ∈ steps then [.finish] else []) ∧
      ∀ call, Called steps call .finalize →
        ((call, .ok ()) ∈ (videoHistory options steps).settled ↔
          ∃ before, before ++ [.resume call] <+: steps ∧ Called before call .finalize ∧
            firstExit before = some (some 0) ∧ firstFailure before = none) :=
  ⟨pipe_videoHistory options steps, fun _ => finalize_ok_iff options⟩

/-- A video of two pixels. -/
def smallVideo : VideoOptions :=
  ⟨"out.mp4", 2, 1, 25, ⟨"mpeg4", "yuv420p", "ffmpeg"⟩⟩

/-- Two frames, of which the second has to wait for room, and the end of the video. A frame of
another size is refused in between, and one more after the end. -/
def smoothRun : List VideoStep :=
  [.append (.blank ⟨2, 1⟩), .room false, .append (.blank ⟨2, 1⟩), .event .drain, .resume 1,
    .append (.blank ⟨1, 1⟩), .finalize, .append (.blank ⟨2, 1⟩), .event (.close (some 0)), .resume 3]

/-- The small video gets both frames, and is finished. -/
theorem video_streams_accepted_frames_smoothRun :
    Called smoothRun 3 .finalize ∧
      (videoHistory smallVideo smoothRun).encoder.pipe =
        [.write (.blank ⟨2, 1⟩), .write (.blank ⟨2, 1⟩), .finish] ∧
      (3, .ok ()) ∈ (videoHistory smallVideo smoothRun).settled := by
  obtain ⟨hpipe, hanswers⟩ := video_streams_accepted_frames smallVideo smoothRun
  have hcalled : Called smoothRun 3 .finalize := rfl
  refine ⟨hcalled, hpipe.trans (by decide +kernel), (hanswers 3 hcalled).mpr ?_⟩
  exact ⟨smoothRun.dropLast, List.prefix_rfl, rfl, rfl, rfl⟩

/-- A refusal names the file of the video, unless the pipe broke while the call was waiting for
room. Then the call is an append, and it is told what the system says. -/
theorem refusal_names_output_iff {e : Error}
    (h : (call, .error e) ∈ (videoHistory options steps).settled) :
    (NamesOutput options e ↔ ∀ reason, ¬ BrokeWhileWaiting options steps call reason) ∧
      ∀ reason, BrokeWhileWaiting options steps call reason →
        (∃ frame, Called steps call (.append frame)) ∧ e = .system reason := by
  have haccounted := accounted_videoHistory options steps
  have hbroken : ∀ reason, BrokeWhileWaiting options steps call reason → e = .system reason := by
    intro reason hbroke
    obtain hpending | hsettled := haccounted.broken call reason hbroke
    · -- What waits was not answered.
      have hdisjoint := (List.nodup_append.mp haccounted.nodup).2.2
      exact absurd rfl (hdisjoint call (List.mem_map_of_mem hpending) call (List.mem_map_of_mem h))
    · exact Except.error.inj (settled_unique options h hsettled)
  refine ⟨⟨fun ⟨cause, hcause, _⟩ reason hbroke => ?_, fun hnever => ?_⟩, fun reason hbroke => ?_⟩
  · cases hcause.symm.trans (hbroken reason hbroke)
  · -- An append or a finalization, told by why it was answered.
    obtain ⟨-, hnames | ⟨reason, hbroke, -⟩⟩ | ⟨before, code, -, -, -, hanswer⟩ :=
      haccounted.answered _ _ h
    · exact hnames e rfl
    · exact absurd hbroke (hnever reason)
    · simpa using VideoEncoder.namesOutput_of_finished hanswer.symm
  · refine ⟨?_, hbroken reason hbroke⟩
    obtain ⟨before, hinit, hroom⟩ := hbroke
    obtain ⟨frame, hcalled⟩ := (accounted_videoHistory options before).waiting _ _ hroom
    exact ⟨frame, hcalled.of_init ((List.prefix_append _ _).trans hinit)⟩

/-- The process cannot be run, and the first frame is refused. -/
theorem refusal_names_output_iff_missingProgram :
    (0, .error (.output (.videoFailed "spawn ffmpeg ENOENT" "out.mp4"))) ∈
        (videoHistory smallVideo
          [.event (.processError "spawn ffmpeg ENOENT"), .append (.blank ⟨2, 1⟩)]).settled ∧
      ∀ reason, ¬ BrokeWhileWaiting smallVideo
        [.event (.processError "spawn ffmpeg ENOENT"), .append (.blank ⟨2, 1⟩)] 0 reason := by
  have hmem : (0, .error (.output (.videoFailed "spawn ffmpeg ENOENT" "out.mp4"))) ∈
      (videoHistory smallVideo
        [.event (.processError "spawn ffmpeg ENOENT"), .append (.blank ⟨2, 1⟩)]).settled :=
    List.mem_singleton_self _
  exact ⟨hmem, (refusal_names_output_iff smallVideo hmem).1.mp ⟨_, rfl, rfl⟩⟩

/-- An append that waits for room while the pipe breaks reports a failure of the system that names
no file. -/
theorem broken_pipe_not_named :
    (videoHistory smallVideo [.room false, .append (.blank ⟨2, 1⟩),
        .event (.pipeError "write EPIPE"), .resume 0]).settled =
      [(0, .error (.system "write EPIPE"))] ∧
    ¬ NamesOutput smallVideo (.system "write EPIPE") :=
  ⟨rfl, fun ⟨_, hcause, _⟩ => nomatch hcause⟩

end Answers

end Flipbook
