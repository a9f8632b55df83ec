import Flipbook.Number.Text
import Flipbook.Script.Problem

/-!
# Errors

Everything that can go wrong between a script and the files made of it. Errors are causes, with
their wording in one `message` function each.

## Main definitions

* `SourceError`: a drawing cannot be had, or does not fit the screen.
* `OutputError`: archives or a video cannot be made as asked.
* `UsageError`: a command line makes no sense.
* `Error`: any of them, or one of a script, of a frame, or of the system.
-/

namespace Flipbook

/-- Reasons why a drawing cannot be used. -/
inductive SourceError where
  /-- A point without finite coordinates. -/
  | noScreenPosition (x y : Binary64)
  /-- A line that has no end. This is nothing that is ever reported: drawing goes on forever, and
  there is no answer to wait for. -/
  | endlessLine
  /-- A point that the device cannot address. -/
  | offScreen (x y : Int)
  /-- A shift of a whole frame that moves a point off the canvas. -/
  | shiftedOffScreen (shiftX shiftY x y : Binary64)
  /-- A source file that cannot be read. -/
  | unreadable (source reason : String)
  | notLoadable (source reason : String)
  /-- A source that no element of the script uses. -/
  | notLoaded (source : String)
  /-- A failure that the loader words itself. -/
  | reported (message : String) (source : Option String)
  deriving DecidableEq, Repr

namespace SourceError

/-- A point in messages. -/
def pointText (x y : Binary64) : String :=
  "(" ++ x.text ++ ", " ++ y.text ++ ")"

/-- The wording of an error. -/
def message : SourceError → String
  | noScreenPosition x y => "Point " ++ pointText x y ++ " has no screen position"
  | endlessLine => "Drawing a line never ends"
  | offScreen x y =>
    "Point " ++ pointText (.ofInt x) (.ofInt y) ++
      " is off screen; has something been moved, rotated or scaled out of view?"
  | shiftedOffScreen shiftX shiftY x y =>
    "Origin shift of " ++ pointText shiftX shiftY ++ " pushed a point off screen to " ++
      pointText x y
  | unreadable source reason => "Could not read source \"" ++ source ++ "\": " ++ reason
  | notLoadable source reason => "Could not load source \"" ++ source ++ "\": " ++ reason
  | notLoaded source => "Source \"" ++ source ++ "\" was not loaded"
  | reported message _ => message

/-- The source that an error is about. -/
def source? : SourceError → Option String
  | unreadable source _ | notLoadable source _ | notLoaded source => some source
  | reported _ source => source
  | _ => none

end SourceError

/-- Which of the two frame numbers of a player program is meant. -/
inductive PlayerBound where
  | first | last
  deriving DecidableEq, Repr

/-- The word for a frame number of a player program. -/
def PlayerBound.name : PlayerBound → String
  | first => "first"
  | last => "last"

/-- Reasons why an output cannot be made. -/
inductive OutputError where
  /-- A file number or size that the flash drive cannot list. -/
  | flashFileNumber (number size : Binary64)
  /-- An archive capacity that is no positive integer. -/
  | capacityNotPositive (capacity : Binary64)
  /-- A first file number that is no positive integer. -/
  | firstNumberNotPositive (number : Binary64)
  /-- An archive that the player program fills alone. -/
  | noRoomForFrames (capacity : Binary64)
  /-- A file number that occurs twice. -/
  | duplicateFile (number : Binary64)
  /-- A file number that is left out. -/
  | missingFile (number : Binary64)
  /-- A file without content. -/
  | emptyFile (number : Binary64)
  /-- A file for an archive set that is closed. -/
  | setClosed
  /-- Bytes that are no archive. -/
  | unreadableArchive (reason : String)
  /-- An archive entry whose name does not follow the naming. -/
  | unrecognisedName (name : String)
  /-- An archive with more than one player program. -/
  | severalPlayers
  /-- A file that the player program plays but the archive does not hold. -/
  | playedFileMissing (number : Binary64)
  /-- A player program whose last frame counting never reaches. This is nothing that is ever
  reported: counting goes on forever, and there is no answer to wait for. -/
  | endlessPlayback (last : Binary64)
  /-- A player program without a unique line for one of its frame numbers. -/
  | playerBoundNotFound (bound : PlayerBound)
  /-- A delay between frames that is no finite non-negative number. -/
  | delayNegative (delay : Binary64)
  /-- A device without a player program. -/
  | profileWithoutPlayer (profile : String)
  /-- A frame that arrives a second time. -/
  | producedTwice (index : Binary64)
  /-- A number of concurrent computations that is no positive integer. -/
  | concurrencyNotPositive (concurrency : Binary64)
  /-- A frame that is not the next one. -/
  | outOfOrder (frame : Binary64) (expected : Nat)
  /-- A file that cannot be written. -/
  | notWritten (path reason : String)
  /-- A frame for a video that is finished. -/
  | videoFinalized (path : String)
  /-- A frame of another size than the video. -/
  | frameSize (width height : Nat) (expectedWidth expectedHeight : Binary64) (path : String)
  | videoFailed (reason path : String)
  /-- A video process that ended with a code other than zero, or with none. -/
  | videoExited (code : Option Binary64) (stderr path : String)
  deriving DecidableEq, Repr

namespace OutputError

/-- Two dimensions in messages. -/
def sizeText (width height : Binary64) : String :=
  width.text ++ "x" ++ height.text

/-- The wording of an error. -/
def message : OutputError → String
  | flashFileNumber number size =>
    "Flash drive file number must be positive and size non-negative (got " ++ number.text ++ ", " ++
      size.text ++ ")"
  | capacityNotPositive capacity =>
    "Archive capacity must be a positive integer, got " ++ capacity.text
  | firstNumberNotPositive number =>
    "First file number must be a positive integer, got " ++ number.text
  | noRoomForFrames capacity =>
    "Archive capacity must leave room for frames after the player program, got " ++ capacity.text
  | duplicateFile number => "File " ++ number.text ++ " appears more than once"
  | missingFile number => "File " ++ number.text ++ " is missing from the sequence"
  | emptyFile number => "File " ++ number.text ++ " is empty"
  | setClosed => "Archive set is already closed"
  | unreadableArchive reason => "Could not read archive: " ++ reason
  | unrecognisedName name => "Unrecognised file name \"" ++ name ++ "\" in archive"
  | severalPlayers => "Archive holds more than one player program"
  | playedFileMissing number =>
    "File " ++ number.text ++ " is played by the player program but missing from the archive"
  | endlessPlayback last =>
    "The player program never reaches file " ++ last.text ++
      ", since file numbers no longer increase"
  | playerBoundNotFound bound =>
    "Could not find the " ++ bound.name ++ " frame number in the player program"
  | delayNegative delay =>
    "Automation delay must be a non-negative number of seconds, got " ++ delay.text
  | profileWithoutPlayer profile => "The " ++ profile ++ " profile has no player program"
  | producedTwice index => "Frame " ++ index.text ++ " was produced twice"
  | concurrencyNotPositive concurrency =>
    "Concurrency must be a positive integer, got " ++ concurrency.text
  | outOfOrder frame expected =>
    "Frame " ++ frame.text ++ " arrived out of order; expected frame " ++ toString expected
  | notWritten path reason => "Could not write " ++ path ++ ": " ++ reason
  | videoFinalized _ => "Video encoder is already finalized"
  | frameSize width height expectedWidth expectedHeight _ =>
    "Frame is " ++ sizeText (.ofNat width) (.ofNat height) ++ ", encoder expects " ++
      sizeText expectedWidth expectedHeight
  | videoFailed reason _ => "ffmpeg failed: " ++ reason
  | videoExited code stderr _ =>
    "ffmpeg exited with code " ++ (code.map Binary64.text).getD "null" ++ ": " ++ stderr

/-- The file that an error is about. -/
def path? : OutputError → Option String
  | notWritten path _ | videoFinalized path | frameSize _ _ _ _ path | videoFailed _ path
  | videoExited _ _ path => some path
  | _ => none

end OutputError

/-- Reasons why a command line is refused. -/
inductive UsageError where
  /-- A value that the flag does not take; an absent one is `none`. -/
  | invalidValue (flag : String) (value : Option String)
  | missingValue (flag : String)
  /-- A kind of output that does not exist. -/
  | unknownKind (kind : String)
  /-- A device that does not exist. -/
  | unknownDevice (device : String)
  /-- A flag that does not exist. -/
  | unknownFlag (flag : String)
  /-- A command that does not exist. -/
  | unknownCommand (command : String)
  | missingInput (command : String)
  /-- An argument too many. -/
  | unexpectedArgument (argument : String)
  /-- A rendering without a place for its output. -/
  | missingOutput
  | deviceWithoutPlayer (device : String)
  deriving DecidableEq, Repr

/-- The wording of an error. -/
def UsageError.message : UsageError → String
  | invalidValue flag value => "Invalid " ++ flag ++ " value: " ++ value.getD "undefined"
  | missingValue flag => "Missing value for " ++ flag
  | unknownKind kind => "Unknown output kind: " ++ kind
  | unknownDevice device => "Unknown device: " ++ device
  | unknownFlag flag => "Unknown option: " ++ flag
  | unknownCommand command => "Unknown command: " ++ command
  | missingInput command => "Missing input file for " ++ command
  | unexpectedArgument argument => "Unexpected argument: " ++ argument
  | missingOutput => "Missing --output path"
  | deviceWithoutPlayer device => "The " ++ device ++ " device has no player program"

/-- Anything that can go wrong. -/
inductive Error where
  /-- A problem of a script, with its line if it has one. -/
  | script (problem : Script.Problem) (line : Option Nat)
  /-- A frame that the script does not have; `last` is the last one that it has. -/
  | frameOutside (frame : Binary64) (last : Nat)
  /-- A drawing cannot be used. -/
  | source (error : SourceError)
  /-- An output cannot be made. -/
  | output (error : OutputError)
  /-- A command line is refused. -/
  | usage (error : UsageError)
  | frameFailed (frame : Nat) (cause : Error)
  /-- The rendering was stopped before a frame. -/
  | cancelled (frame : Nat)
  /-- A kind of output that does not exist, in its written form. -/
  | unknownTarget (target : String)
  /-- A failure of the file system, of a process or of a collaborator, in its own words. -/
  | system (message : String)
  /-- A text that a collaborator raised instead of an error. -/
  | raised (text : String)
  /-- A value that a collaborator raised and that has no text. Who asks for one raises another error
  instead. -/
  | textless (instead : Error)
  /-- An operation does not take a value of this kind. -/
  | unsuitable (message : String)
  deriving DecidableEq, Repr

namespace Error

/-- The wording of an error; a value without a text has none. -/
def message : Error → String
  | script problem (some line) => "line " ++ toString line ++ ": " ++ problem.message
  | script problem none => problem.message
  | frameOutside frame last => "frame " ++ frame.text ++ " is outside 0.." ++ toString last
  | source error => error.message
  | output error => error.message
  | usage error => error.message
  | frameFailed frame cause => "Frame " ++ toString frame ++ " failed: " ++ cause.message
  | cancelled frame => "Rendering cancelled before frame " ++ toString frame
  | unknownTarget target => "Unhandled output target: " ++ target
  | system message => message
  | raised text => text
  | textless _ => ""
  | unsuitable message => message

/-- The text of what was raised, or what is raised where it has none. -/
def describe : Error → Except Error String
  | textless instead => .error instead
  | e => .ok e.message

/-- The error of a frame; a frame error keeps the frame that it names. The text of the error is
asked for, so that one without a text is lost. -/
def ofFrame (frame : Nat) (e : Error) : Error :=
  match e with
  | frameFailed .. => e
  | _ =>
    match e.describe with
    | .ok _ => frameFailed frame e
    | .error instead => instead

end Error

end Flipbook
