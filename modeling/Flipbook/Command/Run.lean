import Flipbook.Command.Options
import Flipbook.Plot.Pen
import Flipbook.Script.Compile
import Flipbook.Storage.Tree
import Flipbook.Text.Utf8

/-!
# Carrying out a command line

A run starts from the files that are there, and ends with the files that it leaves and the messages
that it printed. What is not decided by the command line and the files is given by the surroundings:
how the process ends that encodes a video, and when the user interrupts a rendering.

## Main definitions

* `Surroundings`: what a run meets.
* `Report`: what a run does.
* `run`: carries out a command line.
-/

namespace Flipbook.Command

/-- How a process that encodes a video comes to its end, once all frames were given to it. -/
inductive VideoEnd where
  /-- It prints a message and exits with a code, or without one if it was killed. -/
  | exits (code : Option Binary64) (message : String)
  /-- It turns out that it could not be run. -/
  | fails (reason : String)
  deriving DecidableEq, Repr

/-- What a run meets. -/
structure Surroundings where
  files : FileTree
  /-- What tells the temporary names of files from others. -/
  token : String
  /-- How the process ends that encodes a video. -/
  videoEnd : VideoEnd
  /-- The frame at whose report the user interrupts the rendering. -/
  interruptAt : Option Nat

/-- Where a message is printed. -/
inductive Channel where
  | output
  | warning
  | error
  deriving DecidableEq, Repr

/-- A message, of one or more lines. -/
structure Message where
  /-- Where it is printed. -/
  channel : Channel
  /-- What it says. -/
  text : String
  deriving DecidableEq, Repr

/-- What a run does. -/
structure Report where
  /-- The messages that it prints, in order. -/
  messages : List Message
  failed : Bool
  files : FileTree
  /-- The video that it made or began. -/
  video : Option VideoEncoder

/-- The name of the program. -/
def programName : String := "vecanim"

/-- How the program is used. -/
def usage : String :=
  let devices := String.intercalate "|" (DeviceProfile.all.map DeviceProfile.name)
  String.intercalate "\n"
    ["Usage:",
      "  vecanim render <script> -o <output> [--kind raster|vector-archive-set] [--fps N]",
      "                 [--device " ++ devices ++ "] [--capacity N]",
      "                 [--codec NAME] [--ffmpeg PATH] [--concurrency N]",
      "                 [--player] [--automate SECONDS] [--first-file N] [--origin-shift DX,DY]",
      "  vecanim rechunk <archive.zip> [--prefix PREFIX] [--capacity N] [--device NAME]",
      "                  [--player] [--automate SECONDS] [--first-file N]"]

/-- The message about an error that ends a run. -/
def failureMessage (e : Error) : String :=
  programName ++ ": " ++ e.message

/-- The messages about an error that ends a run. A refused command line is explained. -/
def failureMessages (e : Error) : List Message :=
  ⟨.error, failureMessage e⟩ ::
    match e with
    | .usage _ => [⟨.error, usage⟩]
    | _ => []

namespace Report

/-- A run that leaves the files as they are, up to now. -/
def start (files : FileTree) : Report where
  messages := []
  failed := false
  files := files
  video := none

/-- Prints more messages. -/
def say (report : Report) (channel : Channel) (texts : List String) : Report :=
  { report with messages := report.messages ++ texts.map (⟨channel, ·⟩) }

/-- Ends with an error. -/
def fail (report : Report) (e : Error) : Report :=
  { report with messages := report.messages ++ failureMessages e, failed := true }

/-- Ends with a result that is told, or with an error. -/
def finish {β : Type} (report : Report) (tell : β → List String) : Except Error β → Report
  | .ok result => report.say .output (tell result)
  | .error e => report.fail e

end Report

/-- Archives as files. -/
def fileStore (token : String) : ArchiveStore FileTree where
  put files name data := files.store token (files.locate name) data

/-- A process that encodes a video. It takes all frames and then ends. -/
def processSink (videoEnd : VideoEnd) : ImageSink VideoEncoder where
  append encoder image :=
    let (encoder, settled) := encoder.append 0 image
    (encoder, (settled.head?.map Prod.snd).getD (.ok ()))
  finalize encoder :=
    let (encoder, early) := encoder.finalize 0
    let (encoder, late) :=
      match videoEnd with
      | .fails reason => encoder.receive (.processError reason)
      | .exits code message => (encoder.receive (.message message)).1.receive (.close code)
    (encoder, ((early ++ late).head?.map Prod.snd).getD (.ok ()))

section

variable {α : Type} [Trig α]

/-- Reads and compiles a script. Drawings lie relative to the directory of the script, which is
given, too. -/
def loadScript (files : FileTree) (path : String) (frameRate : Option Binary64) :
    Except Error (Timeline α × Path) := do
  let data ← (files.read path).mapError fun e => .system e.message
  let directory := (files.locate path).parent
  let timeline ← Script.compile
    { sourceExists := some fun source => files.holds (directory.resolve source).text, frameRate }
    (decodeUtf8 data)
  .ok (timeline, directory)

/-- Reads a drawing, whose name is a path from a directory. -/
def loadDrawing (files : FileTree) (directory : Path) (source : String) :
    Except Error (Drawing α) :=
  match files.read (directory.resolve source).text with
  | .error e => .error (.source (.unreadable source e.message))
  | .ok data => .ok (Drawing.ofStrokes (Plot.strokes (decodeUtf8 data)))

/-- What the program says when it is interrupted. -/
def interruptMessage : String :=
  "Stopping after the current frame..."

/-- The messages of frames that were reported. -/
def frameMessages (surroundings : Surroundings) (total frame : Nat) : List Message :=
  ⟨.output, frameStatus (.ofNat total) frame⟩ ::
    if surroundings.interruptAt = some frame then [⟨.warning, interruptMessage⟩] else []

/-- Takes over what has come of an animation, and tells its outputs. -/
def Report.finishAnimation (report : Report) (surroundings : Surroundings) (total : Nat)
    (animation : Animation VideoEncoder FileTree) : Report :=
  let frames := animation.reports.flatMap (frameMessages surroundings total)
  let report := report.say .warning animation.warnings
  let report :=
    { report with
      messages := report.messages ++ frames
      files := animation.stored
      video := animation.encoder }
  let report := report.say .error (animation.finalizeError.toList.map finalizeMessage)
  report.finish (fun (_, outputs) => outputs.map ("Wrote " ++ ·)) animation.result

/-- How a script is exported with some options. -/
def exportOptions (surroundings : Surroundings) (options : Options) : ExportOptions where
  outputPath := options.output
  concurrency := options.concurrency
  stopsAt frame := surroundings.interruptAt = some frame

/-- Where the outputs of a rendering go. -/
def outlets (surroundings : Surroundings) : Outlets VideoEncoder FileTree where
  createEncoder := VideoEncoder.start
  sink := processSink surroundings.videoEnd
  store := fileStore surroundings.token

/-- Renders a script. -/
def render (α : Type) [Trig α] [Zip.Codec] (surroundings : Surroundings) (options : Options)
    (script : String) : Report :=
  let files := surroundings.files
  let report := Report.start files
  match loadScript (α := α) files script options.frameRate with
  | .error e => report.fail e
  | .ok (timeline, directory) =>
    report.finishAnimation surroundings timeline.totalFrames
      (animate timeline options.target (loadDrawing files directory)
        (exportOptions surroundings options) (outlets surroundings) files)

end

/-- The options for splitting an archive anew. -/
def rechunkOptions (options : Options) (archive : String) : Except OutputError PackOptions := do
  let player ← if options.player then some <$> Player.ofDelay options.delay else .ok none
  .ok { capacity := options.capacity
        naming := options.device.naming
        stem := options.stem.getD (defaultStem archive)
        firstNumber := options.firstNumber
        player }

/-- The archives that an archive is split into. -/
def rechunkArchives [Zip.Codec] (files : FileTree) (options : Options) (archive : String) :
    Except Error (List PackedArchive) := do
  if options.player && !options.device.supportsPlayer then
    .error (.usage (.deviceWithoutPlayer options.device.name))
  else
    let data ← (files.read archive).mapError fun e => .system e.message
    let packing ← (rechunkOptions options archive).mapError .output
    Flipbook.rechunk data packing

/-- What is told about an archive that was written. -/
def archiveMessage (archive : PackedArchive) : String :=
  "Wrote " ++ archive.name ++ " (" ++ toString archive.entries.length ++ " files)"

/-- Splits an archive anew. -/
def rechunk [Zip.Codec] (surroundings : Surroundings) (options : Options) (archive : String) :
    Report :=
  let files := surroundings.files
  let report := Report.start files
  match rechunkArchives files options archive with
  | .error e => report.fail e
  | .ok archives =>
    let (files, result) := storeArchives (fileStore surroundings.token) files archives
    { report with files }.finish (fun _ => archives.map archiveMessage) result

/-- Carries out a command line, with numbers of a type `α` for coordinates. -/
def run (α : Type) [Trig α] [Zip.Codec] (surroundings : Surroundings) (texts : List String) :
    Report :=
  let report := Report.start surroundings.files
  match CommandLine.parse texts with
  | .error e => report.fail (.usage e)
  | .ok ⟨.help, _⟩ => report.say .output [usage]
  | .ok ⟨.render script, options⟩ => render α surroundings options script
  | .ok ⟨.rechunk archive, options⟩ => rechunk surroundings options archive

end Flipbook.Command
