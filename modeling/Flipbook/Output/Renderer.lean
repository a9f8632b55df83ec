import Flipbook.Archive.Store
import Flipbook.Device.Profile
import Flipbook.Geometry.Placement
import Flipbook.Schedule.Run

/-!
# Renderers

A renderer encodes the strokes of a frame, and writes what it has encoded. Frames may be encoded
ahead of their turn, but have to be written in order. A renderer is finalized when no more frames
come.

## Main definitions

* `Renderer`: a kind of output, with a state of its own.
* `Renderer.write`: writes a frame, if it is the next one.
* `archiveRenderer`, `videoRenderer`: the two kinds of output.
-/

namespace Flipbook

/-- When the writing of a frame is done. -/
inductive Pace where
  /-- After so many rounds of other work. -/
  | rounds (n : Nat)
  /-- When all other work has come to rest. -/
  | atRest
  deriving DecidableEq, Repr

/-- What came of writing a frame. -/
structure WriteOutcome where
  result : Except Error Unit
  /-- When that is known. -/
  pace : Pace

/-- A kind of output for encoded frames of a type `β`, whose state has type `σ`. -/
structure Renderer (α β σ : Type) where
  encode : Binary64 → List (Stroke α) → Except Error β
  /-- Writes an encoded frame behind the ones before. -/
  append : σ → β → σ × WriteOutcome
  /-- Ends the output. -/
  finalize : σ → σ × Except Error Unit

/-- The state of an output, with the number of frames written. -/
structure Rendering (σ : Type) where
  /-- The frame that has to be written next. -/
  nextFrame : Nat
  output : σ

namespace Renderer

variable {α β σ : Type}

/-- Writes a frame, if it is the next one. A frame that was not written may be tried again. -/
def write (renderer : Renderer α β σ) (state : Rendering σ) (frame : Binary64) (payload : β) :
    Rendering σ × WriteOutcome :=
  if frame.same (.ofNat state.nextFrame) then
    let (output, outcome) := renderer.append state.output payload
    match outcome.result with
    | .ok () => (⟨state.nextFrame + 1, output⟩, outcome)
    | .error _ => (⟨state.nextFrame, output⟩, outcome)
  else (state, ⟨.error (.output (.outOfOrder frame state.nextFrame)), .rounds 0⟩)

/-- Ends the output. -/
def finish (renderer : Renderer α β σ) (state : Rendering σ) : Rendering σ × Except Error Unit :=
  let (output, result) := renderer.finalize state.output
  ({ state with output }, result)

end Renderer

variable {α σ : Type} [Scalar α]

/-- Frames as device files in an archive set. An archive that is full takes its time. -/
def archiveRenderer [Zip.Codec] (profile : DeviceProfile) (canvas : Canvas) (shift : Point α)
    (store : ArchiveStore σ) : Renderer α FrameFile (ArchiveSet σ) where
  encode frame strokes := do
    let shifted ← (shiftStrokes shift canvas.extent strokes).mapError .source
    (profile.emit canvas frame shifted).mapError .source
  append set file :=
    let (set, outcome) := set.add store file
    (set, ⟨outcome.result, if outcome.handedOver then .atRest else .rounds 1⟩)
  finalize set :=
    let (set, outcome) := set.close store
    (set, outcome.result)

/-- A receiver of images, with a state of its own. -/
structure ImageSink (σ : Type) where
  append : σ → Raster.Image → σ × Except Error Unit
  /-- No more images come. -/
  finalize : σ → σ × Except Error Unit

/-- Frames as images of a video. -/
def videoRenderer (canvas : Canvas) (sink : ImageSink σ) : Renderer α Raster.Image σ where
  encode _ strokes := (Raster.rasterize canvas Raster.Colour.phosphor strokes).mapError .source
  append state image :=
    let (state, result) := sink.append state image
    (state, ⟨result, .rounds 1⟩)
  finalize := sink.finalize

end Flipbook
