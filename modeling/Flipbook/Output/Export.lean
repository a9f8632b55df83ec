import Flipbook.Output.Renderer
import Flipbook.Output.Video
import Flipbook.Scene.Flatten

/-!
# Exporting animations

An animation is exported frame by frame to one output. All drawings are loaded before the output is
opened, and the output is finalized however the export ends. An error of the frames is reported even
if finalizing fails, too.

## Main definitions

* `ExportTask`: the frames to be exported, and an output that was opened for them.
* `renderFrames`: computes and writes all frames.
* `exportFrames`: that, and finalizes the output.
* `exportArchives`, `exportVideo`: exports to either kind of output.
* `animate`: loads the drawings, opens the output and exports to it.
-/

namespace Flipbook

variable {α β σ : Type}

/-- How an export is carried out. -/
structure ExportOptions where
  /-- The path of a video, or what the names of archives start with. -/
  outputPath : String
  /-- The number of frames computed at the same time. -/
  concurrency : Binary64
  /-- Whether the export is asked to stop when a frame is reported. -/
  stopsAt : Nat → Bool

/-- Frames under way: the run, the output, the reports so far, and a write whose outcome becomes
known when everything else is at rest. -/
structure Progress (β σ : Type) where
  run : Run β
  rendering : Rendering σ
  /-- The reports, the latest first. -/
  reports : List Nat
  /-- The outcome of a write. -/
  atRest : Option (Except Error Unit)

/-- Frames to be exported, and an output that was opened for them. -/
structure ExportTask (α β σ : Type) where
  renderer : Renderer α β σ
  /-- Computes and encodes a frame. -/
  encode : Nat → Except Error β
  /-- The number of frames. -/
  total : Nat
  /-- The state of the output, which is empty. -/
  output : σ

namespace Progress

/-- Meets a demand of the run. -/
def meet (task : ExportTask α β σ) (stopsAt : Nat → Bool) (p : Progress β σ) :
    Demand β → Progress β σ
  | .compute frame =>
    match task.encode frame with
    | .ok value => { p with run := p.run.post (.computed frame (.ok (some value))) }
    | .error e => { p with run := p.run.post (.failed (.ofFrame frame e)) }
  | .write frame value =>
    let (rendering, outcome) := task.renderer.write p.rendering (.ofNat frame) value
    match outcome.pace with
    | .rounds n =>
      { p with rendering, run := p.run.post (Turn.after n (.wrote outcome.result)) }
    | .atRest => { p with rendering, atRest := some outcome.result }
  | .report frame =>
    { p with
      reports := frame :: p.reports
      run := if stopsAt frame then p.run.abort else p.run }

/-- Takes turns, at most `fuel` of them, and meets the demands that they lead to. -/
def go (task : ExportTask α β σ) (stopsAt : Nat → Bool) : Nat → Progress β σ → Progress β σ
  | 0, p => p
  | fuel + 1, p =>
    match p.run.step with
    | some (run, demands) => go task stopsAt fuel (demands.foldl (meet task stopsAt) { p with run })
    | none =>
      match p.atRest with
      | none => p
      | some result =>
        go task stopsAt fuel { p with run := p.run.post (.wrote result), atRest := none }

end Progress

/-- The outcome of computing and writing frames. -/
structure FramesOutcome (σ : Type) where
  /-- The number of frames, or why not all of them were written. -/
  result : Except Error Nat
  /-- The state of the output. -/
  rendering : Rendering σ
  /-- The frames that were reported, in order. -/
  reports : List Nat

/-- Computes and writes all frames. A frame takes part in a bounded number of turns: its result, its
flush, its write and their aftermath. -/
def renderFrames (task : ExportTask α β σ) (options : ExportOptions) : FramesOutcome σ :=
  match Run.start task.total options.concurrency false (fun _ => none) with
  | .error e => ⟨.error (.output e), ⟨0, task.output⟩, []⟩
  | .ok (run, demands) =>
    let p := demands.foldl (Progress.meet task options.stopsAt)
      { run, rendering := ⟨0, task.output⟩, reports := [], atRest := none }
    let p := Progress.go task options.stopsAt (20 * (task.total + 1)) p
    ⟨p.run.outcome.getD (.error (.cancelled p.run.written)), p.rendering, p.reports.reverse⟩

/-- The outcome of an export. -/
structure ExportOutcome (σ : Type) where
  /-- The number of frames, or the error of the export. -/
  result : Except Error Nat
  output : σ
  /-- The frames that were reported, in order. -/
  reports : List Nat
  /-- Why the output could not be finalized, when that is not the error of the export. -/
  finalizeError : Option Error

/-- What comes of the frames and of finalizing the output: the result of both, and an error of the
latter that is not the result. -/
def conclude (frames : Except Error Nat) (finalized : Except Error Unit) :
    Except Error Nat × Option Error :=
  match frames, finalized with
  | .error e, .ok () => (.error e, none)
  | .error e, .error f => (.error e, some f)
  | .ok n, .ok () => (.ok n, none)
  | .ok _, .error f => (.error f, none)

/-- Computes and writes all frames, and finalizes the output. -/
def exportFrames (task : ExportTask α β σ) (options : ExportOptions) : ExportOutcome σ :=
  let frames := renderFrames task options
  let (rendering, finalized) := task.renderer.finish frames.rendering
  let (result, finalizeError) := conclude frames.result finalized
  { result, output := rendering.output, reports := frames.reports, finalizeError }

/-- The message about an output that could not be finalized after an error. -/
def finalizeMessage (e : Error) : String :=
  "Failed to finalize output after an error: " ++ e.message

section

variable [Trig α]

/-- The frames of a timeline, and an output that was opened for them. -/
def Renderer.task (renderer : Renderer α β σ) (timeline : Timeline α) (library : Library α)
    (output : σ) : ExportTask α β σ where
  renderer := renderer
  encode frame := do
    let strokes ← (timeline.scene frame).flatten library timeline.canvas
    renderer.encode (.ofNat frame) strokes
  total := timeline.totalFrames
  output := output

/-- The options of the video of a timeline. -/
def videoOptions (timeline : Timeline α) (outputPath : String) (codec : VideoCodec) :
    VideoOptions where
  outputPath := outputPath
  width := .ofNat timeline.canvas.width
  height := .ofNat timeline.canvas.height
  frameRate := timeline.frameRate
  codec := codec

/-- The export of a timeline as a video. -/
def videoTask (timeline : Timeline α) (library : Library α) (sink : ImageSink σ) (output : σ) :
    ExportTask α Raster.Image σ :=
  (videoRenderer timeline.canvas sink).task timeline library output

/-- Exports a timeline as a video. -/
def exportVideo (timeline : Timeline α) (library : Library α) (options : ExportOptions)
    (sink : ImageSink σ) (output : σ) : ExportOutcome σ :=
  exportFrames (videoTask timeline library sink output) options

/-- An archive set for a device. -/
structure ArchiveTarget (α : Type) where
  /-- The greatest number of files in an archive. -/
  capacity : Binary64
  device : DeviceProfile
  /-- The number of the first file in every archive. -/
  firstNumber : Option Binary64
  /-- The delay of a player program, if there is to be one. -/
  playerDelay : Option Binary64
  /-- The displacement of all frames. -/
  originShift : Option (Point α)

/-- The writer for an archive set, if the device and the options allow it. -/
def ArchiveTarget.writer (target : ArchiveTarget α) (stem : String) :
    Except OutputError ArchiveWriter := do
  if target.playerDelay.isSome && !target.device.supportsPlayer then
    .error (.profileWithoutPlayer target.device.name)
  else
    let player ←
      match target.playerDelay with
      | none => .ok none
      | some delay => some <$> Player.ofDelay delay
    ArchiveWriter.start
      { capacity := target.capacity, naming := target.device.naming, stem,
        firstNumber := target.firstNumber, player }

/-- The displacement of all frames, which is none unless one is given. -/
def ArchiveTarget.shift (target : ArchiveTarget α) : Point α :=
  target.originShift.getD ⟨Scalar.ofInt 0, Scalar.ofInt 0⟩

variable [Zip.Codec]

/-- The export of a timeline as an archive set. -/
def archiveTask (timeline : Timeline α) (library : Library α) (target : ArchiveTarget α)
    (store : ArchiveStore σ) (writer : ArchiveWriter) (stored : σ) :
    ExportTask α FrameFile (ArchiveSet σ) :=
  (archiveRenderer target.device timeline.canvas target.shift store).task timeline library
    ⟨writer, stored⟩

/-- Exports a timeline as an archive set. If the target is refused, no output is opened. -/
def exportArchives (timeline : Timeline α) (library : Library α) (target : ArchiveTarget α)
    (options : ExportOptions) (store : ArchiveStore σ) (stored : σ) :
    Except OutputError (ExportOutcome (ArchiveSet σ)) := do
  let writer ← target.writer options.outputPath
  .ok (exportFrames (archiveTask timeline library target store writer stored) options)

/-- An output that is asked for. -/
inductive OutputTarget (α : Type) where
  | video (codec : VideoCodec)
  | archives (target : ArchiveTarget α)

/-- Where outputs go: videos to encoders with states of a type `τ`, archives to a store. -/
structure Outlets (τ σ : Type) where
  /-- Creates an encoder. -/
  createEncoder : VideoOptions → τ
  /-- What encoders do. -/
  sink : ImageSink τ
  store : ArchiveStore σ

/-- What has come of an animation. -/
structure Animation (τ σ : Type) where
  /-- The number of frames and the names of the outputs, or the error. -/
  result : Except Error (Nat × List String)
  /-- The encoder, if one was created. -/
  encoder : Option τ
  /-- The state of the store. -/
  stored : σ
  /-- The frames that were reported, in order. -/
  reports : List Nat
  /-- Why the output could not be finalized, when that is not the error. -/
  finalizeError : Option Error
  /-- What loading warned about. -/
  warnings : List String

/-- Loads the drawings of a timeline, opens the output that is asked for, and exports to it. -/
def animate {τ : Type} (timeline : Timeline α) (target : OutputTarget α)
    (loader : String → Except Error (Drawing α)) (options : ExportOptions) (outlets : Outlets τ σ)
    (stored : σ) : Animation τ σ :=
  let loading := Library.load timeline loader
  let rejected (e : Error) : Animation τ σ :=
    { result := .error e, encoder := none, stored, reports := [], finalizeError := none,
      warnings := loading.warnings }
  match loading.result with
  | .error e => rejected e
  | .ok library =>
    match target with
    | .video codec =>
      let encoder := outlets.createEncoder (videoOptions timeline options.outputPath codec)
      let outcome := exportVideo timeline library options outlets.sink encoder
      { result := outcome.result.map fun frames => (frames, [options.outputPath])
        encoder := some outcome.output
        stored
        reports := outcome.reports
        finalizeError := outcome.finalizeError
        warnings := loading.warnings }
    | .archives target =>
      match exportArchives timeline library target options outlets.store stored with
      | .error e => rejected (.output e)
      | .ok outcome =>
        { result := outcome.result.map fun frames =>
            (frames, outcome.output.writer.archives.map PackedArchive.name)
          encoder := none
          stored := outcome.output.stored
          reports := outcome.reports
          finalizeError := outcome.finalizeError
          warnings := loading.warnings }

end

end Flipbook
