import Flipbook.Raster.Image
import Flipbook.Error
import Flipbook.Text.Blank
import Flipbook.Text.Utf16

/-!
# Encoding a video with another process

A video encoder is a process that reads raw frames from its standard input. Calls to append a frame,
and to finalize the video, are answered at once or wait for the process: an append that overfills
the pipe waits until it is drained, and a finalization until the process has ended. A call for which
what it waited for has happened is ready to go on, and is answered when it does so.

## Main definitions

* `VideoOptions.arguments`: the command line of the process.
* `VideoEncoder.beginAppend`, `VideoEncoder.beginFinalize`: a call up to where it waits.
* `VideoEncoder.notice`: something happens to the process.
* `VideoEncoder.resume`: a call that is ready goes on.
* `VideoEncoder.append`, `VideoEncoder.finalize`, `VideoEncoder.receive`: the same, with all calls
  that are ready going on at once.
-/

namespace Flipbook

/-- How a video is encoded. -/
structure VideoCodec where
  codec : String
  /-- How pixels are stored. -/
  pixelFormat : String
  program : String
  deriving DecidableEq, Repr

/-- What a video is like, and where it goes. -/
structure VideoOptions where
  outputPath : String
  /-- The width of each frame. -/
  width : Binary64
  /-- The height of each frame. -/
  height : Binary64
  /-- The number of frames per second. -/
  frameRate : Binary64
  /-- How it is encoded. -/
  codec : VideoCodec
  deriving DecidableEq, Repr

/-- The arguments that make the program read raw frames and write the video. -/
def VideoOptions.arguments (options : VideoOptions) : List String :=
  ["-y", "-f", "rawvideo", "-pix_fmt", "rgb24",
    "-s", OutputError.sizeText options.width options.height,
    "-r", options.frameRate.text, "-i", "-",
    "-c:v", options.codec.codec, "-pix_fmt", options.codec.pixelFormat, options.outputPath]

/-- The number of UTF-16 units of the messages of the process that are kept. -/
def messageTail : Nat := 2000

/-- Something that happens to the process. -/
inductive ProcessEvent where
  /-- The pipe to the process has room again. -/
  | drain
  /-- The process prints a message. -/
  | message (text : String)
  /-- The pipe to the process breaks. -/
  | pipeError (reason : String)
  /-- The process cannot be run. -/
  | processError (reason : String)
  /-- The process has ended, with a code unless it was killed. -/
  | close (code : Option Binary64)
  deriving DecidableEq, Repr

namespace ProcessEvent

/-- The failure that an event is. -/
def failure? : ProcessEvent → Option String
  | pipeError reason | processError reason => some reason
  | _ => none

/-- How the process ended, if the event is its end: with a code, or without one. -/
def exit? : ProcessEvent → Option (Option Binary64)
  | processError _ => some none
  | close code => some code
  | _ => none

/-- What the process prints. -/
def text : ProcessEvent → String
  | message text => text
  | _ => ""

end ProcessEvent

/-- What is done to the input of the process. -/
inductive PipeAction where
  /-- A frame is written to the pipe. -/
  | write (frame : Raster.Image)
  /-- The input is ended. -/
  | finish
  deriving DecidableEq

/-- The frame that is written. -/
def PipeAction.frame? : PipeAction → Option Raster.Image
  | write frame => some frame
  | finish => none

/-- What a call that is not answered has come to. -/
inductive Waiting where
  /-- An append waits for room in the pipe, or for the end of the process. -/
  | forRoom
  /-- A finalization waits for the end of the process. -/
  | forEnd
  /-- An append need not wait for room any longer. -/
  | roomFound
  /-- The pipe broke while an append was waiting for room. -/
  | pipeBroken (reason : String)
  /-- The process has ended for which a finalization was waiting. -/
  | processEnded (code : Option Binary64)
  deriving DecidableEq, Repr

namespace Waiting

/-- What a call has come to after an event. -/
def after (event : ProcessEvent) : Waiting → Waiting
  | forRoom =>
    match event with
    | .drain | .processError _ | .close _ => roomFound
    | .pipeError reason => pipeBroken reason
    | .message _ => forRoom
  | forEnd =>
    match event.exit? with
    | some code => processEnded code
    | none => forEnd
  -- What a call has come to stays so, whatever happens before it goes on.
  | waiting => waiting

/-- Whether the call is a finalization that can go on. -/
def isEnded : Waiting → Bool
  | processEnded _ => true
  | _ => false

end Waiting

/-- A call that has been answered. -/
abbrev Settled : Type := Nat × Except Error Unit

/-- The state of a video under way. Calls are known by numbers. -/
structure VideoEncoder where
  /-- What the video is like. -/
  options : VideoOptions
  /-- Whether the pipe has room for a frame. -/
  accepting : Bool
  /-- What was done to the input of the process, in order. -/
  pipe : List PipeAction
  /-- Whether the video was finalized. -/
  finalized : Bool
  /-- The first failure of the pipe or the process. -/
  failure : Option String
  /-- How the process ended, if it has: with a code, or without one. -/
  exit : Option (Option Binary64)
  /-- The end of what the process printed. -/
  messages : List Char
  /-- The calls that are not answered, in the order in which they began. -/
  pending : List (Nat × Waiting)

namespace VideoEncoder

/-- A video without frames, to be read by a new process. -/
def start (options : VideoOptions) : VideoEncoder where
  options := options
  accepting := true
  pipe := []
  finalized := false
  failure := none
  exit := none
  messages := []
  pending := []

/-- The frames given to the process. -/
def frames (encoder : VideoEncoder) : List Raster.Image :=
  encoder.pipe.filterMap PipeAction.frame?

/-- How often the input of the process was ended. -/
def ended (encoder : VideoEncoder) : Nat :=
  encoder.pipe.count .finish

/-- The answer to a call that nothing but a recorded failure stands against. -/
def checkFailure (encoder : VideoEncoder) : Except Error Unit :=
  match encoder.failure with
  | some reason => .error (.output (.videoFailed reason encoder.options.outputPath))
  | none => .ok ()

/-- The answer to a finalization, when the process has ended. -/
def finished (encoder : VideoEncoder) (code : Option Binary64) : Except Error Unit := do
  encoder.checkFailure
  if code = some 0 then .ok ()
  else
    .error (.output (.videoExited code (String.ofList (trimBlank encoder.messages))
      encoder.options.outputPath))

/-- Why a frame is refused. -/
def refusal (encoder : VideoEncoder) (frame : Raster.Image) : Except Error Unit := do
  encoder.checkFailure
  let path := encoder.options.outputPath
  let ⟨width, height⟩ := frame.canvas
  let options := encoder.options
  if encoder.finalized then .error (.output (.videoFinalized path))
  else if .ofNat width = options.width ∧ .ofNat height = options.height then .ok ()
  else .error (.output (.frameSize width height options.width options.height path))

/-- The answer to a call that can go on. A broken pipe is reported as it is. -/
def answer? (encoder : VideoEncoder) : Waiting → Option (Except Error Unit)
  | .forRoom | .forEnd => none
  | .roomFound => some encoder.checkFailure
  | .pipeBroken reason => some (.error (.system reason))
  | .processEnded code => some (encoder.finished code)

/-- A call is not answered yet. -/
def wait (encoder : VideoEncoder) (call : Nat) (waiting : Waiting) : VideoEncoder :=
  { encoder with pending := encoder.pending ++ [(call, waiting)] }

/-- An append begins. Its frame is refused or written; if the pipe is full then, the call waits for
room, but not beyond the end of the process. -/
def beginAppend (encoder : VideoEncoder) (call : Nat) (frame : Raster.Image) :
    VideoEncoder × List Settled :=
  match encoder.refusal frame with
  | .error e => (encoder, [(call, .error e)])
  | .ok () =>
    let next := { encoder with pipe := encoder.pipe ++ [.write frame] }
    if encoder.accepting then (next, [(call, .ok ())])
    -- Once the process has ended there is nothing to wait for, but the call still goes on later.
    else (next.wait call (if encoder.exit.isSome then .roomFound else .forRoom), [])

/-- A finalization begins. The input of the process is ended once, and the call waits for the end of
the process. -/
def beginFinalize (encoder : VideoEncoder) (call : Nat) : VideoEncoder :=
  let next :=
    if encoder.finalized then encoder
    else { encoder with finalized := true, pipe := encoder.pipe ++ [.finish] }
  next.wait call
    (match encoder.exit with
    | some code => .processEnded code
    | none => .forEnd)

/-- Something happens to the process. The first failure and the first end count. -/
def notice (encoder : VideoEncoder) (event : ProcessEvent) : VideoEncoder :=
  { encoder with
    failure := encoder.failure.or event.failure?
    exit := encoder.exit.or event.exit?
    messages := lastUnits16 messageTail (encoder.messages ++ event.text.toList)
    pending := encoder.pending.map fun (call, waiting) => (call, waiting.after event) }

/-- A call goes on, if it can, and is answered. -/
def resume (encoder : VideoEncoder) (call : Nat) : VideoEncoder × List Settled :=
  match (encoder.pending.lookup call).bind encoder.answer? with
  | some answer =>
    ({ encoder with pending := encoder.pending.filter fun other => other.1 ≠ call },
      [(call, answer)])
  | none => (encoder, [])

/-- Calls go on one after the other. -/
def resumeAll (encoder : VideoEncoder) : List Nat → VideoEncoder × List Settled
  | [] => (encoder, [])
  | call :: calls =>
    let (next, settled) := encoder.resume call
    let (next, more) := next.resumeAll calls
    (next, settled ++ more)

/-- All calls go on that can: first finalizations, and then appends. -/
def goOn (encoder : VideoEncoder) : VideoEncoder × List Settled :=
  let (ended, others) := encoder.pending.partition fun call => call.2.isEnded
  encoder.resumeAll ((ended ++ others).map Prod.fst)

/-- Appends a frame. -/
def append (encoder : VideoEncoder) (call : Nat) (frame : Raster.Image) :
    VideoEncoder × List Settled :=
  let (next, settled) := encoder.beginAppend call frame
  let (next, more) := next.goOn
  (next, settled ++ more)

/-- Finalizes the video. -/
def finalize (encoder : VideoEncoder) (call : Nat) : VideoEncoder × List Settled :=
  (encoder.beginFinalize call).goOn

/-- Something happens to the process, and calls that waited for it are answered. -/
def receive (encoder : VideoEncoder) (event : ProcessEvent) : VideoEncoder × List Settled :=
  (encoder.notice event).goOn

end VideoEncoder

end Flipbook
