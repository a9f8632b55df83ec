import Mathlib.Data.List.Induction
import Mathlib.Data.List.TakeWhile
import Flipbook.Output.Video

/-!
# Histories of a video

The calls of a video and the events of its process come in any order, and between them calls go on
that are ready to. A history is such an interleaving, taken from a new process. What an encoder has
recorded, and what its process was given, can be read off the list of the steps.

## Main definitions

* `VideoStep`: a call, an event, or a call that goes on.
* `videoHistory`: an encoder, and the answers that it gave, after an interleaving of steps.
* `acceptedFrames`: the frames that a history gives to the process.

## Main results

* `failure_videoHistory`, `exit_videoHistory`: the first failure and the first end are recorded.
* `pipe_videoHistory`: the process gets the accepted frames, and then the end of its input.
* `frames_videoHistory`, `ended_videoHistory`: what is reported of that.
* `exists_videoHistory_eq_served`: calls that go on as soon as they can are one of the
  interleavings.
-/

namespace Flipbook

/-- A step of a video under way. -/
inductive VideoStep where
  /-- A frame is appended. -/
  | append (frame : Raster.Image)
  /-- The video is finalized. -/
  | finalize
  /-- The pipe has room for a frame from now on, or has none. -/
  | room (accepting : Bool)
  /-- Something happens to the process. -/
  | event (event : ProcessEvent)
  /-- A call goes on, if it can. -/
  | resume (call : Nat)
  deriving DecidableEq

namespace VideoStep

/-- Whether a step is a call. -/
def isCall : VideoStep → Bool
  | append _ | finalize => true
  | _ => false

/-- Whether a step is a call that goes on. -/
def isResume : VideoStep → Bool
  | resume _ => true
  | _ => false

/-- The failure that a step is. -/
def failure? : VideoStep → Option String
  | event what => what.failure?
  | _ => none

/-- How the process ended, if the step is its end. -/
def exit? : VideoStep → Option (Option Binary64)
  | event what => what.exit?
  | _ => none

/-- Whether frames can be appended after a step if they could before. -/
def keepsOpen (step : VideoStep) : Bool :=
  step ≠ finalize ∧ step.failure? = none

/-- The frame that a step appends, if it has the size of the video. -/
def fitting? (options : VideoOptions) : VideoStep → Option Raster.Image
  | append frame =>
    if .ofNat frame.canvas.width = options.width ∧ .ofNat frame.canvas.height = options.height then
      some frame
    else none
  | _ => none

end VideoStep

/-- The first failure of the pipe or the process. -/
def firstFailure (steps : List VideoStep) : Option String :=
  steps.findSome? VideoStep.failure?

/-- How the process ended, if it has: with a code, or without one. -/
def firstExit (steps : List VideoStep) : Option (Option Binary64) :=
  steps.findSome? VideoStep.exit?

/-- The frames of the size of the video that are appended before the first finalization, and before
any failure. -/
def acceptedFrames (options : VideoOptions) (steps : List VideoStep) : List Raster.Image :=
  (steps.takeWhile VideoStep.keepsOpen).filterMap (VideoStep.fitting? options)

/-- A call is made, and it is known by a number. -/
def Called (steps : List VideoStep) (call : Nat) (step : VideoStep) : Prop :=
  (steps.filter VideoStep.isCall)[call]? = some step

/-- An encoder takes a step. If it is a call, it is known by `number` from then on. -/
def VideoEncoder.take (encoder : VideoEncoder) (number : Nat) :
    VideoStep → VideoEncoder × List Settled
  | .append frame => encoder.beginAppend number frame
  | .finalize => (encoder.beginFinalize number, [])
  | .room accepting => ({ encoder with accepting := accepting }, [])
  | .event event => (encoder.notice event, [])
  | .resume call => encoder.resume call

/-- An encoder takes a step, and all calls go on that can then. -/
def VideoEncoder.serve (encoder : VideoEncoder) (number : Nat) :
    VideoStep → VideoEncoder × List Settled
  | .append frame => encoder.append number frame
  | .finalize => encoder.finalize number
  | .room accepting => ({ encoder with accepting := accepting }, [])
  | .event event => encoder.receive event
  | .resume call => encoder.resume call

/-- A video under way, with what its calls were answered. -/
structure VideoHistory where
  encoder : VideoEncoder
  /-- The number of calls so far. -/
  calls : Nat
  /-- The answers so far. -/
  settled : List Settled

namespace VideoHistory

/-- A new process, and no calls yet. -/
def start (options : VideoOptions) : VideoHistory where
  encoder := .start options
  calls := 0
  settled := []

/-- One step more, with what it does to the encoder and the calls that it answers. -/
def extend (history : VideoHistory) (step : VideoStep) (after : VideoEncoder × List Settled) :
    VideoHistory where
  encoder := after.1
  calls := if step.isCall then history.calls + 1 else history.calls
  settled := history.settled ++ after.2

/-- One step more. -/
def take (history : VideoHistory) (step : VideoStep) : VideoHistory :=
  history.extend step (history.encoder.take history.calls step)

/-- One step more, after which all calls go on that can. -/
def serve (history : VideoHistory) (step : VideoStep) : VideoHistory :=
  history.extend step (history.encoder.serve history.calls step)

end VideoHistory

/-- A new process, after steps that come in any order. -/
def videoHistory (options : VideoOptions) (steps : List VideoStep) : VideoHistory :=
  steps.foldl VideoHistory.take (.start options)

@[simp]
theorem videoHistory_nil (options : VideoOptions) : videoHistory options [] = .start options := rfl

/-- One step more is taken from where the others have led. -/
theorem videoHistory_concat (options : VideoOptions) (steps : List VideoStep) (step : VideoStep) :
    videoHistory options (steps ++ [step]) = (videoHistory options steps).take step := by
  simp [videoHistory]

/-! ### What one step changes -/

namespace VideoEncoder

variable (encoder : VideoEncoder)

/-- A frame is not refused if the video is open, and has the size of the frame. -/
theorem refusal_eq_ok_iff (frame : Raster.Image) :
    encoder.refusal frame = .ok () ↔
      (encoder.finalized = false ∧ encoder.failure = none) ∧
        VideoStep.fitting? encoder.options (.append frame) = some frame := by
  cases hfailure : encoder.failure <;> cases hfinalized : encoder.finalized <;>
    simp [refusal, checkFailure, hfailure, hfinalized, VideoStep.fitting?, bind, Except.bind]

/-- An append is refused, and its frame is not written; or its frame is written, and it is answered
without an error or waits. -/
theorem beginAppend_cases (call : Nat) (frame : Raster.Image) :
    (∃ e, encoder.refusal frame = .error e ∧
      encoder.beginAppend call frame = (encoder, [(call, .error e)])) ∨
    (encoder.refusal frame = .ok () ∧
      encoder.beginAppend call frame =
        ({ encoder with pipe := encoder.pipe ++ [.write frame] }, [(call, .ok ())])) ∨
    (encoder.refusal frame = .ok () ∧ ∃ waiting, (waiting = .forRoom ∨ waiting = .roomFound) ∧
      encoder.beginAppend call frame =
        ({ encoder with
            pipe := encoder.pipe ++ [.write frame]
            pending := encoder.pending ++ [(call, waiting)] }, [])) := by
  unfold beginAppend
  match hrefusal : encoder.refusal frame with
  | .error e => exact .inl ⟨e, rfl, rfl⟩
  | .ok () =>
    by_cases haccepting : encoder.accepting = true
    · exact .inr (.inl ⟨rfl, by simp [haccepting]⟩)
    · -- The pipe is full. After the end of the process there is nothing to wait for.
      refine .inr (.inr ⟨rfl, _, ?_, by simp only [haccepting, wait]; rfl⟩)
      cases encoder.exit <;> simp

/-- A call goes on and is answered, if it waits and is ready. Otherwise nothing happens. -/
theorem resume_cases (call : Nat) :
    (∃ waiting answer, encoder.pending.lookup call = some waiting ∧
      encoder.answer? waiting = some answer ∧
      encoder.resume call =
        ({ encoder with pending := encoder.pending.filter fun other => other.1 ≠ call },
          [(call, answer)])) ∨
    ((∀ waiting, encoder.pending.lookup call = some waiting → encoder.answer? waiting = none) ∧
      encoder.resume call = (encoder, [])) := by
  unfold resume
  cases hlookup : encoder.pending.lookup call with
  | none => exact .inr ⟨nofun, rfl⟩
  | some waiting =>
    cases hanswer : encoder.answer? waiting with
    | none => exact .inr ⟨by rintro _ ⟨⟩; exact hanswer, by simp [hanswer]⟩
    | some answer => exact .inl ⟨waiting, answer, rfl, hanswer, by simp [hanswer]⟩

/-- What a step does to the input of the process. -/
def given : VideoStep → List PipeAction
  | .append frame =>
    match encoder.refusal frame with
    | .ok () => [.write frame]
    | .error _ => []
  | .finalize => if encoder.finalized then [] else [.finish]
  | _ => []

/-- An append writes its frame if the video is open, and has the size of the frame. -/
theorem given_append (frame : Raster.Image) :
    encoder.given (.append frame) =
      if encoder.finalized = false ∧ encoder.failure = none then
        (VideoStep.fitting? encoder.options (.append frame)).toList.map .write
      else [] := by
  have hok := encoder.refusal_eq_ok_iff frame
  have hfitting : ∀ other, VideoStep.fitting? encoder.options (.append frame) = some other →
      other = frame := by
    simp [VideoStep.fitting?, eq_comm]
  cases hrefusal : encoder.refusal frame <;>
    cases h : VideoStep.fitting? encoder.options (.append frame) <;>
    simp_all [given]

section Take

variable (number : Nat) (step : VideoStep)

-- Both sides share the parts of the encoder that are not spoken of here: whether the pipe has room,
-- what the process printed, and the calls that wait.
/-- A step records the first failure, the first end and the first finalization, and gives the
process what it says. -/
private theorem take_eq :
    (encoder.take number step).1 =
      { (encoder.take number step).1 with
        options := encoder.options
        pipe := encoder.pipe ++ encoder.given step
        finalized := encoder.finalized || decide (step = .finalize)
        failure := encoder.failure.or step.failure?
        exit := encoder.exit.or step.exit? } := by
  cases step with
  | append frame =>
    obtain ⟨e, hrefusal, h⟩ | ⟨hrefusal, h⟩ | ⟨hrefusal, _, -, h⟩ :=
      encoder.beginAppend_cases number frame <;>
      simp [take, given, hrefusal, h, VideoStep.failure?, VideoStep.exit?]
  | finalize =>
    cases hfinalized : encoder.finalized <;>
      simp [take, given, beginFinalize, wait, hfinalized, VideoStep.failure?, VideoStep.exit?]
  | room accepting => simp [take, given, VideoStep.failure?, VideoStep.exit?]
  | event event => simp [take, given, notice, VideoStep.failure?, VideoStep.exit?]
  | resume call =>
    obtain ⟨_, _, -, -, h⟩ | ⟨-, h⟩ := encoder.resume_cases call <;>
      simp [take, given, h, VideoStep.failure?, VideoStep.exit?]

/-- No step changes what the video is like. -/
@[simp]
theorem options_take : (encoder.take number step).1.options = encoder.options := by
  rw [take_eq]

/-- A step adds to what the process was given. -/
@[simp]
theorem pipe_take : (encoder.take number step).1.pipe = encoder.pipe ++ encoder.given step := by
  rw [take_eq]

/-- Only a finalization finalizes the video, and nothing takes that back. -/
@[simp]
theorem finalized_take :
    (encoder.take number step).1.finalized = (encoder.finalized || decide (step = .finalize)) := by
  rw [take_eq]

/-- The first failure is recorded, and no other. -/
@[simp]
theorem failure_take :
    (encoder.take number step).1.failure = encoder.failure.or step.failure? := by
  rw [take_eq]

/-- The first end is recorded, and no other. -/
@[simp]
theorem exit_take : (encoder.take number step).1.exit = encoder.exit.or step.exit? := by
  rw [take_eq]

end Take

end VideoEncoder

/-! ### What a history has led to -/

section History

variable (options : VideoOptions) (steps : List VideoStep) (step : VideoStep)

@[simp]
theorem firstFailure_concat :
    firstFailure (steps ++ [step]) = (firstFailure steps).or step.failure? := by
  simp [firstFailure, List.findSome?_append]

@[simp]
theorem firstExit_concat : firstExit (steps ++ [step]) = (firstExit steps).or step.exit? := by
  simp [firstExit, List.findSome?_append]

/-- No step changes what the video is like. -/
@[simp]
theorem options_videoHistory : (videoHistory options steps).encoder.options = options := by
  induction steps using List.reverseRecOn with
  | nil => rfl
  | append_singleton steps step ih =>
    simpa [videoHistory_concat, VideoHistory.take, VideoHistory.extend] using ih

/-- The recorded failure is the first one of the history. -/
@[simp]
theorem failure_videoHistory :
    (videoHistory options steps).encoder.failure = firstFailure steps := by
  induction steps using List.reverseRecOn with
  | nil => rfl
  | append_singleton steps step ih =>
    simp [videoHistory_concat, VideoHistory.take, VideoHistory.extend, ih]

/-- The recorded end of the process is the first one of the history. -/
@[simp]
theorem exit_videoHistory : (videoHistory options steps).encoder.exit = firstExit steps := by
  induction steps using List.reverseRecOn with
  | nil => rfl
  | append_singleton steps step ih =>
    simp [videoHistory_concat, VideoHistory.take, VideoHistory.extend, ih]

/-- A video is finalized once a step of the history is its finalization. -/
@[simp]
theorem finalized_videoHistory :
    (videoHistory options steps).encoder.finalized = decide (.finalize ∈ steps) := by
  induction steps using List.reverseRecOn with
  | nil => rfl
  | append_singleton steps step ih =>
    simp [videoHistory_concat, VideoHistory.take, VideoHistory.extend, ih,
      @eq_comm _ VideoStep.finalize]

/-- The calls of a history are numbered as they are made. -/
@[simp]
theorem calls_videoHistory :
    (videoHistory options steps).calls = (steps.filter VideoStep.isCall).length := by
  induction steps using List.reverseRecOn with
  | nil => rfl
  | append_singleton steps step ih =>
    cases h : step.isCall <;>
      simp [videoHistory_concat, VideoHistory.take, VideoHistory.extend, ih, h]

/-- A video is open to frames unless it was finalized or something has failed. -/
theorem all_keepsOpen_iff :
    steps.all VideoStep.keepsOpen = true ↔ .finalize ∉ steps ∧ firstFailure steps = none := by
  simp only [List.all_eq_true, VideoStep.keepsOpen, decide_eq_true_eq, firstFailure,
    List.findSome?_eq_none_iff]
  grind

/-- A step that closes a video to frames appends none itself. -/
theorem fitting?_eq_none_of_keepsOpen_eq_false (h : step.keepsOpen = false) :
    step.fitting? options = none := by
  cases step <;> simp_all [VideoStep.keepsOpen, VideoStep.fitting?, VideoStep.failure?]

/-- A step appends a frame that is accepted if the video is open to it. -/
theorem acceptedFrames_concat :
    acceptedFrames options (steps ++ [step]) =
      acceptedFrames options steps ++
        if steps.all VideoStep.keepsOpen then (step.fitting? options).toList else [] := by
  simp only [acceptedFrames]
  by_cases hopen : steps.all VideoStep.keepsOpen = true
  · -- All steps count, and the last one does too if it appends a frame.
    have hself : steps.takeWhile VideoStep.keepsOpen = steps :=
      List.takeWhile_eq_self_iff.mpr (by simpa using hopen)
    rw [List.takeWhile_append_of_pos (by simpa using hopen), hself, List.filterMap_append,
      if_pos hopen]
    cases hstep : step.keepsOpen with
    | true => cases h : step.fitting? options <;> simp [hstep, h]
    | false => simp [hstep, fitting?_eq_none_of_keepsOpen_eq_false options step hstep]
  · -- The accepted frames end before the last step already.
    have hlength : (steps.takeWhile VideoStep.keepsOpen).length ≠ steps.length := by
      intro h
      have hself := (List.takeWhile_prefix VideoStep.keepsOpen).eq_of_length h
      exact hopen (by simpa [List.takeWhile_eq_self_iff] using hself)
    simp [List.takeWhile_append, hlength, hopen]

/-- The process gets the accepted frames in their order, and then, once the video is finalized, the
end of its input. -/
theorem pipe_videoHistory :
    (videoHistory options steps).encoder.pipe =
      (acceptedFrames options steps).map .write ++
        if .finalize ∈ steps then [.finish] else [] := by
  induction steps using List.reverseRecOn with
  | nil => rfl
  | append_singleton steps step ih =>
    simp only [videoHistory_concat, VideoHistory.take, VideoHistory.extend,
      VideoEncoder.pipe_take, ih, acceptedFrames_concat, all_keepsOpen_iff, List.append_assoc,
      List.map_append, List.append_cancel_left_eq]
    cases step with
    | append frame =>
      -- While the video is open, the end of the input is not yet given.
      by_cases hfinalize : VideoStep.finalize ∈ steps <;>
        by_cases hfailure : firstFailure steps = none <;>
        simp [VideoEncoder.given_append, hfinalize, hfailure]
    | finalize =>
      by_cases hfinalize : VideoStep.finalize ∈ steps <;>
        simp [VideoEncoder.given, VideoStep.fitting?, hfinalize]
    | room accepting => simp [VideoEncoder.given, VideoStep.fitting?]
    | event event => simp [VideoEncoder.given, VideoStep.fitting?]
    | resume call => simp [VideoEncoder.given, VideoStep.fitting?]

/-- The frames given to the process are the accepted ones. -/
theorem frames_videoHistory :
    (videoHistory options steps).encoder.frames = acceptedFrames options steps := by
  have hwrite : PipeAction.frame? ∘ PipeAction.write = some := rfl
  rw [VideoEncoder.frames, pipe_videoHistory, List.filterMap_append, List.filterMap_map, hwrite,
    List.filterMap_some]
  split <;> simp [PipeAction.frame?]

/-- The input of the process is ended once if the video is finalized, however often that is. -/
theorem ended_videoHistory :
    (videoHistory options steps).encoder.ended = if .finalize ∈ steps then 1 else 0 := by
  have hwrites : ((acceptedFrames options steps).map PipeAction.write).count .finish = 0 := by
    simp [List.count_eq_zero]
  rw [VideoEncoder.ended, pipe_videoHistory, List.count_append, hwrites]
  split <;> simp

end History

/-! ### What an earlier step leaves for good -/

section Init

variable {before steps : List VideoStep}

/-- The first end of the process stays the first. -/
theorem firstExit_eq_of_init (h : before <+: steps) {code : Option Binary64}
    (hexit : firstExit before = some code) : firstExit steps = some code := by
  obtain ⟨after, rfl⟩ := h
  simp_all [firstExit, List.findSome?_append]

/-- What has not failed has not failed before. -/
theorem firstFailure_eq_none_of_init (h : before <+: steps) (hfailure : firstFailure steps = none) :
    firstFailure before = none := by
  obtain ⟨after, rfl⟩ := h
  simp_all [firstFailure, List.findSome?_append]

/-- A call keeps its number. -/
theorem Called.of_init (h : before <+: steps) {call : Nat} {step : VideoStep}
    (hcalled : Called before call step) : Called steps call step := by
  obtain ⟨after, rfl⟩ := h
  obtain ⟨hlt, -⟩ := List.getElem?_eq_some_iff.mp hcalled
  simpa [Called, List.getElem?_append_left hlt] using hcalled

/-- A number stands for one call. -/
theorem Called.unique {call : Nat} {step other : VideoStep} (h : Called steps call step)
    (hother : Called steps call other) : step = other :=
  Option.some.inj (h.symm.trans hother)

end Init

/-- A new call is known by the number of calls before it. -/
theorem called_concat (options : VideoOptions) (steps : List VideoStep) {step : VideoStep}
    (h : step.isCall = true) :
    Called (steps ++ [step]) (videoHistory options steps).calls step := by
  simp [Called, h]

/-! ### Calls that go on as soon as they can -/

/-- Calls that go on one after the other are as many steps. -/
theorem VideoHistory.foldl_take_resume (history : VideoHistory) (calls : List Nat) :
    (calls.map .resume).foldl VideoHistory.take history =
      { history with
        encoder := (history.encoder.resumeAll calls).1
        settled := history.settled ++ (history.encoder.resumeAll calls).2 } := by
  induction calls generalizing history with
  | nil => simp [VideoEncoder.resumeAll]
  | cons call calls ih =>
    simp [ih, VideoHistory.take, VideoHistory.extend, VideoEncoder.take, VideoEncoder.resumeAll,
      VideoStep.isCall]

/-- A step after which calls go on is that step, and then some calls that go on. -/
theorem VideoHistory.exists_serve_eq (history : VideoHistory) (step : VideoStep) :
    ∃ calls : List Nat,
      history.serve step = (step :: calls.map .resume).foldl VideoHistory.take history := by
  have hgoOn (encoder : VideoEncoder) : ∃ calls, encoder.goOn = encoder.resumeAll calls :=
    ⟨_, rfl⟩
  cases step with
  | append frame =>
    obtain ⟨calls, h⟩ := hgoOn (history.encoder.beginAppend history.calls frame).1
    refine ⟨calls, ?_⟩
    simp [foldl_take_resume, serve, take, extend, VideoEncoder.serve, VideoEncoder.take,
      VideoEncoder.append, h]
  | finalize =>
    obtain ⟨calls, h⟩ := hgoOn (history.encoder.beginFinalize history.calls)
    refine ⟨calls, ?_⟩
    simp [foldl_take_resume, serve, take, extend, VideoEncoder.serve, VideoEncoder.take,
      VideoEncoder.finalize, h]
  | event event =>
    obtain ⟨calls, h⟩ := hgoOn (history.encoder.notice event)
    refine ⟨calls, ?_⟩
    simp [foldl_take_resume, serve, take, extend, VideoEncoder.serve, VideoEncoder.take,
      VideoEncoder.receive, h]
  | room accepting => exact ⟨[], rfl⟩
  | resume call => exact ⟨[], rfl⟩

/-- If all calls go on as soon as they can, then that is one of the interleavings: the same calls
and events, with calls that go on in between. -/
theorem exists_videoHistory_eq_served (options : VideoOptions) (steps : List VideoStep) :
    ∃ taken : List VideoStep,
      taken.filter (fun step => !step.isResume) = steps.filter (fun step => !step.isResume) ∧
        steps.foldl VideoHistory.serve (.start options) = videoHistory options taken := by
  induction steps using List.reverseRecOn with
  | nil => exact ⟨[], rfl, rfl⟩
  | append_singleton steps step ih =>
    -- Behind each step come the calls that it lets go on.
    obtain ⟨taken, hfilter, hserved⟩ := ih
    obtain ⟨calls, hcalls⟩ := (videoHistory options taken).exists_serve_eq step
    refine ⟨taken ++ step :: calls.map .resume, ?_, ?_⟩
    · have hresumes : (calls.map VideoStep.resume).filter (fun step => !step.isResume) = [] := by
        simp [VideoStep.isResume]
      rw [List.filter_append, List.filter_append, hfilter, List.filter_cons, hresumes]
      simp [List.filter_cons]
    · rw [List.foldl_append, hserved, List.foldl_cons, List.foldl_nil, hcalls, videoHistory,
        videoHistory, List.foldl_append]

end Flipbook
