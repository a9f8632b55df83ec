import Flipbook.Error
import Flipbook.Schedule.ReorderBuffer

/-!
# Computing frames ahead and writing them in order

A run computes the frames of an animation with a number of workers and writes them strictly in
order. A worker takes the next frame, has it computed, puts the result into the reorder buffer, and
asks for a flush, which writes the results whose turn has come. Flushes form a chain: each one
begins when the one before has ended, and fails if that one failed. The first failure stops the run,
and an abort stops it before the next frame is begun.

Whatever has become possible is noted as a turn in a queue, and turns are taken one after the other.
The outside world answers the demands of a run by adding turns: a frame has been computed, or
written. The order in which turns are taken is part of what a run does, since it decides how far the
writing gets before a failure stops it.

## Main definitions

* `Run.start`: a run with its first demands. `Run.startNumber` is that for any number of frames.
* `Run.post`: the outside world, or the run itself, adds a turn.
* `Run.step`: takes the next turn.
* `Run.outcome`: how a run ended, once all its workers are done.
-/

namespace Flipbook

/-- What a run demands from the outside world. -/
inductive Demand (β : Type) where
  /-- Compute a frame; the answer is `Turn.computed`. -/
  | compute (frame : Nat)
  /-- Write a frame; the answer is `Turn.wrote`. -/
  | write (frame : Nat) (value : β)
  /-- Report that a frame was written; there is no answer. -/
  | report (frame : Nat)
  deriving DecidableEq, Repr

/-- Something that can go on. -/
inductive Turn (β : Type) where
  /-- A worker goes on with the result of a frame, or with nothing if there is none. -/
  | computed (frame : Nat) (result : Except Error (Option β))
  /-- A worker goes on after its flush. -/
  | flushed (result : Except Error Unit)
  /-- The failure of a worker is noted. -/
  | failed (error : Error)
  /-- The first flush of the chain begins. -/
  | flush
  /-- The first flush of the chain is passed over, because one before it failed. -/
  | pass (error : Error)
  /-- The flush under way goes on after a write. -/
  | wrote (result : Except Error Unit)
  /-- The chain takes note of the flush under way. -/
  | adopt
  /-- The flush under way, which has ended, leaves the chain. -/
  | leave
  /-- A turn that comes up later, after so many rounds of waiting. -/
  | wait (rounds : Nat) (turn : Turn β)

/-- A turn that comes up after so many others. -/
def Turn.after {β : Type} : Nat → Turn β → Turn β
  | 0, turn => turn
  | n + 1, turn => .wait n turn

/-- The flush under way. -/
structure Flush (β : Type) where
  /-- The results that are still to be written, after the one being written. -/
  remaining : List (Nat × β)
  /-- The frame that is being written. -/
  writing : Option Nat
  /-- How the flush ended, if it has. -/
  ended : Option (Except Error Unit)
  /-- Whether the chain has taken note of the flush. -/
  adopted : Bool

/-- The state of a run. -/
structure Run (β : Type) where
  /-- The number of frames; without one, there is no end of them. -/
  total : Option Nat
  /-- What the receiver of reports raises, frame by frame. -/
  reportFault : Nat → Option Error
  /-- The results that wait for their turn. -/
  buffer : ReorderBuffer Nat β
  nextFrame : Nat
  /-- The number of frames written. -/
  written : Nat
  /-- Whether no more frames are to be begun or written. -/
  stopped : Bool
  /-- Whether the run was asked to stop. -/
  aborted : Bool
  /-- Whether a worker has noticed that. -/
  cancelled : Bool
  failure : Option Error
  /-- The number of workers that are not done. -/
  workers : Nat
  /-- The number of flushes in the chain. -/
  chain : Nat
  /-- Why the last flush that left the chain failed, if it did. -/
  chainError : Option Error
  /-- The flush under way. -/
  current : Flush β
  queue : List (Turn β)

namespace Run

variable {β : Type}

/-- Adds a turn at the end of the queue. -/
def post (run : Run β) (turn : Turn β) : Run β :=
  { run with queue := run.queue ++ [turn] }

/-- Adds a turn if a condition holds. -/
def postIf (run : Run β) (condition : Bool) (turn : Turn β) : Run β :=
  if condition then run.post turn else run

/-- A worker begins the next frame, or is done. -/
def advance (run : Run β) : Run β × List (Demand β) :=
  if run.stopped || run.total.any (· ≤ run.nextFrame) then
    ({ run with workers := run.workers - 1 }, [])
  else if run.aborted then
    ({ run with cancelled := true, stopped := true, workers := run.workers - 1 }, [])
  else ({ run with nextFrame := run.nextFrame + 1 }, [.compute run.nextFrame])

/-- Adds a flush to the chain. It begins at once if the chain is empty. -/
def requestFlush (run : Run β) : Run β :=
  let next := { run with chain := run.chain + 1 }
  if run.chain = 0 then
    match run.chainError with
    | none => next.post .flush
    | some e => next.post (.pass e)
  else next

/-- The flush under way ends. -/
def endFlush (run : Run β) (result : Except Error Unit) : Run β :=
  let ended := { run.current with remaining := [], writing := none, ended := some result }
  let next := { run with current := ended }
  next.postIf run.current.adopted .leave

/-- The flush under way writes its next result, or ends if there is none or the run is stopped. -/
def writeNext (run : Run β) (remaining : List (Nat × β)) : Run β × List (Demand β) :=
  match remaining with
  | [] => (run.endFlush (.ok ()), [])
  | (frame, value) :: rest =>
    if run.stopped then (run.endFlush (.ok ()), [])
    else
      ({ run with current := { run.current with remaining := rest, writing := some frame } },
        [.write frame value])

/-- The first flush of the chain begins with the results whose turn has come. -/
def beginFlush (run : Run β) : Run β × List (Demand β) :=
  let (ready, buffer) := run.buffer.takeReady
  let fresh : Flush β := { remaining := [], writing := none, ended := none, adopted := false }
  let begun : Run β := { run with buffer, current := fresh }
  let (next, demands) := begun.writeNext ready
  (next.post .adopt, demands)

/-- The first flush leaves the chain: its worker goes on, and the next flush begins. -/
def leaveChain (run : Run β) (result : Except Error Unit) : Run β :=
  let next := { run with chain := run.chain - 1 }.post (.flushed result)
  match result with
  | .ok () => next.postIf (decide (0 < next.chain)) .flush
  | .error e => { next with chainError := some e }.postIf (decide (0 < next.chain)) (.pass e)

/-- A frame was written: it is reported, and the flush goes on. -/
def noteWritten (run : Run β) (frame : Nat) : Run β × List (Demand β) :=
  let next := { run with written := run.written + 1 }
  match run.reportFault frame with
  | some e => (next.endFlush (.error e), [.report frame])
  | none =>
    let (next, demands) := next.writeNext run.current.remaining
    (next, .report frame :: demands)

/-- What a turn leads to. -/
def take (run : Run β) : Turn β → Run β × List (Demand β)
  | .computed frame (.ok value) =>
    match run.buffer.put frame value with
    | some buffer => ({ run with buffer }.requestFlush, [])
    | none => (run.post (.failed (.output (.producedTwice (.ofNat frame)))), [])
  | .computed frame (.error e) => (run.post (.failed (.ofFrame frame e)), [])
  | .flushed (.ok ()) => run.advance
  | .flushed (.error e) => (run.post (.failed e), [])
  | .failed e =>
    let failure := run.failure.or (some e)
    ({ run with stopped := true, failure, workers := run.workers - 1 }, [])
  | .flush => run.beginFlush
  | .pass e => (run.leaveChain (.error e), [])
  | .wrote result =>
    match run.current.writing with
    | none => (run, [])
    | some frame =>
      match result with
      | .ok () => run.noteWritten frame
      | .error e => (run.endFlush (.error (.ofFrame frame e)), [])
  | .adopt =>
    let next := { run with current := { run.current with adopted := true } }
    (next.postIf run.current.ended.isSome .leave, [])
  | .leave => (run.leaveChain (run.current.ended.getD (.ok ())), [])
  | .wait rounds turn => (run.post (turn.after rounds), [])

/-- Takes the next turn, if there is one. -/
def step (run : Run β) : Option (Run β × List (Demand β)) :=
  match run.queue with
  | [] => none
  | turn :: queue => some ({ run with queue }.take turn)

/-- Lets so many workers begin. -/
def startWorkers : Nat → Run β → Run β × List (Demand β)
  | 0, run => (run, [])
  | n + 1, run =>
    let (run, demands) := run.advance
    let (run, more) := startWorkers n run
    (run, demands ++ more)

/-- The number of workers that a concurrency stands for, if it is a positive integer. -/
def concurrency? (concurrency : Binary64) : Except OutputError Nat :=
  match concurrency.toNat?.filter fun n => 0 < n with
  | some n => .ok n
  | none => .error (.concurrencyNotPositive concurrency)

/-- A run of so many frames with so many workers, none of which has begun. -/
def fresh (total : Option Nat) (workers : Nat) (aborted : Bool)
    (reportFault : Nat → Option Error) : Run β where
  total := total
  reportFault := reportFault
  buffer := .start 0
  nextFrame := 0
  written := 0
  stopped := false
  aborted := aborted
  cancelled := false
  failure := none
  workers := workers
  chain := 0
  chainError := none
  current := { remaining := [], writing := none, ended := none, adopted := false }
  queue := []

/-- A run of so many frames with so many workers, and their first demands. -/
def launch (total : Option Nat) (workers : Nat) (aborted : Bool)
    (reportFault : Nat → Option Error) : Run β × List (Demand β) :=
  startWorkers workers (fresh total workers aborted reportFault)

/-- A run of so many frames, with the first demands of its workers. There are no more workers than
frames. -/
def start (total : Nat) (concurrency : Binary64) (aborted : Bool)
    (reportFault : Nat → Option Error) : Except OutputError (Run β × List (Demand β)) := do
  let concurrency ← concurrency? concurrency
  .ok (launch (some total) (min concurrency total) aborted reportFault)

/-- The number of frames that are below a number; there is no end of them below infinity. -/
def frameCount (total : Binary64) : Option Nat :=
  match total with
  | .finite q => some q.ceil.toNat
  | .infinite false => none
  | .infinite true | .nan => some 0

/-- The number of workers for the frames below a number. A fraction does not get one. -/
def workerCount (concurrency : Nat) (total : Binary64) : Nat :=
  match total with
  | .finite q => min concurrency q.floor.toNat
  | .infinite false => concurrency
  | .infinite true | .nan => 0

/-- A run of the frames below any number, with the first demands of its workers. -/
def startNumber (total concurrency : Binary64) (aborted : Bool)
    (reportFault : Nat → Option Error) : Except OutputError (Run β × List (Demand β)) := do
  let concurrency ← concurrency? concurrency
  .ok (launch (frameCount total) (workerCount concurrency total) aborted reportFault)

/-- The run, asked to stop. -/
def abort (run : Run β) : Run β :=
  { run with aborted := true }

/-- How a run ended, once all workers are done: the number of frames written, or the first failure,
or where the run was stopped. -/
def outcome (run : Run β) : Option (Except Error Nat) :=
  if run.workers = 0 then
    some <|
      match run.failure with
      | some e => .error e
      | none => if run.cancelled then .error (.cancelled run.written) else .ok run.written
  else none

end Run

/-- The status of an animation of so many frames when a frame is reported. -/
def frameStatus (total : Binary64) (frame : Nat) : String :=
  "Rendering Frame " ++ toString (frame + 1) ++ "/" ++ total.text

end Flipbook
