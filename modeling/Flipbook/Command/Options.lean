import Flipbook.Number.Numeral
import Flipbook.Output.Export

/-!
# Options of the command line

An argument that begins with a hyphen is a flag, most of which take the next argument as their
value, whatever that begins with. All others are positional: the command and its input. Arguments
are first read into settings, one after the other, up to the first that makes no sense or asks for
help. The options are what the settings leave behind, so that the last one of a kind counts.

## Main definitions

* `Setting`, `Argument`: what one or two arguments say.
* `readArguments`: the arguments of a command line.
* `Options`: all options, with the defaults that hold if nothing is said.
* `CommandLine.parse`: what a command line asks for.
* `Options.target`: the output that is asked for.
-/

namespace Flipbook.Command

/-- The kinds of output. -/
inductive OutputKind where
  | raster
  /-- A set of archives for a device. -/
  | archives
  deriving DecidableEq, Repr

namespace OutputKind

/-- The name of a kind. -/
def name : OutputKind → String
  | raster => "raster"
  | archives => "vector-archive-set"

/-- The kind of a name. -/
def ofName? (name : String) : Option OutputKind :=
  [raster, archives].find? fun k => k.name = name

end OutputKind

/-- The flags that take a value. -/
inductive ValueFlag where
  | output | stem | kind | frameRate | device | capacity | codec | program | concurrency | delay
  | firstNumber | originShift
  deriving DecidableEq, Repr

/-- The flag of a name. -/
def ValueFlag.ofName? : String → Option ValueFlag
  | "--output" | "-o" => some output
  | "--prefix" => some stem
  | "--kind" => some kind
  | "--fps" => some frameRate
  | "--device" => some device
  | "--capacity" => some capacity
  | "--codec" => some codec
  | "--ffmpeg" => some program
  | "--concurrency" => some concurrency
  | "--automate" => some delay
  | "--first-file" => some firstNumber
  | "--origin-shift" => some originShift
  | _ => none

/-- What a flag says. -/
inductive Setting where
  /-- Where a rendering goes. -/
  | output (path : String)
  /-- What the names of new archives start with. -/
  | stem (stem : String)
  | kind (kind : OutputKind)
  /-- The number of frames per second. -/
  | frameRate (rate : Binary64)
  | device (device : DeviceProfile)
  /-- The greatest number of files in an archive. -/
  | capacity (count : Binary64)
  | codec (codec : String)
  /-- The program that encodes a video. -/
  | program (path : String)
  /-- The number of frames computed at the same time. -/
  | concurrency (count : Binary64)
  /-- That archives begin with a player program. -/
  | player
  /-- That they do, and how long it waits between frames. -/
  | delay (seconds : Binary64)
  /-- The number of the first file in every archive. -/
  | firstNumber (number : Binary64)
  /-- The displacement of all frames. -/
  | originShift (x y : Binary64)
  deriving DecidableEq, Repr

/-- Whether a text begins with a hyphen. -/
def isFlag (text : String) : Bool :=
  text.toList.head? = some '-'

/-- The positive finite number that a text stands for. -/
def positiveNumber? (text : String) : Option Binary64 :=
  let n := Binary64.ofText text
  if n.isFinite && Binary64.lt 0 n then some n else none

/-- The positive integer that a text stands for. -/
def positiveInteger? (text : String) : Option Binary64 :=
  (positiveNumber? text).filter Binary64.isInteger

/-- The finite number, zero or more, that a text stands for; a blank text stands for none. -/
def nonNegativeNumber? (text : String) : Option Binary64 :=
  let n := Binary64.ofText text
  if (trimBlank text.toList).isEmpty || !n.isFinite || n.lt 0 then none else some n

/-- The two integers, with a comma between them, that a text stands for. -/
def integerPair? (text : String) : Option (Int × Int) :=
  match piecesBy (· = ',') text.toList with
  | [x, y] =>
    match signedInteger? x, signedInteger? y with
    | some x, some y => some (x, y)
    | _, _ => none
  | _ => none

/-- A value that must not look like a flag. -/
def plainValue (name value : String) : Except UsageError String :=
  if isFlag value then .error (.missingValue name) else .ok value

/-- A value that must be of some form. -/
def formedValue {β : Type} (name value : String) : Option β → Except UsageError β
  | some v => .ok v
  | none => .error (.invalidValue name (some value))

namespace ValueFlag

/-- What a flag says, which is written with a name and a value. -/
def setting (flag : ValueFlag) (name value : String) : Except UsageError Setting :=
  match flag with
  | output => .output <$> plainValue name value
  | stem => .stem <$> plainValue name value
  | kind => do
    let value ← plainValue name value
    match OutputKind.ofName? value with
    | some k => .ok (.kind k)
    | none => .error (.unknownKind value)
  | frameRate => .frameRate <$> formedValue name value (positiveNumber? value)
  | device => do
    let value ← plainValue name value
    match DeviceProfile.ofName? value with
    | some profile => .ok (.device profile)
    | none => .error (.unknownDevice value)
  | capacity => .capacity <$> formedValue name value (positiveInteger? value)
  | codec => .codec <$> plainValue name value
  | program => .program <$> plainValue name value
  | concurrency => .concurrency <$> formedValue name value (positiveInteger? value)
  | delay => .delay <$> formedValue name value (nonNegativeNumber? value)
  | firstNumber => .firstNumber <$> formedValue name value (positiveInteger? value)
  | originShift => do
    let (x, y) ← formedValue name value (integerPair? value)
    .ok (.originShift (.ofInt x) (.ofInt y))

/-- The error of a flag at the end of a command line. -/
def absentValue (flag : ValueFlag) (name : String) : UsageError :=
  match flag with
  | output | stem | kind | device | codec | program => .missingValue name
  | frameRate | capacity | concurrency | delay | firstNumber | originShift =>
    .invalidValue name none

end ValueFlag

/-- What one argument, or a flag with its value, says. -/
inductive Argument where
  | setting (setting : Setting)
  | help
  /-- A command or an input. -/
  | positional (text : String)
  deriving DecidableEq, Repr

namespace Argument

/-- The setting, if it is one. -/
def setting? : Argument → Option Setting
  | setting s => some s
  | _ => none

/-- The text of a positional argument. -/
def positional? : Argument → Option String
  | positional text => some text
  | _ => none

/-- An argument that is no flag with a value. -/
def ofSingle (text : String) : Except UsageError Argument :=
  if text = "--player" then .ok (.setting .player)
  else if isFlag text then .error (.unknownFlag text)
  else .ok (.positional text)

end Argument

/-- Whether an argument asks for help. -/
def asksForHelp (text : String) : Bool :=
  text = "--help" || text = "-h"

/-- The arguments of a command line. What follows a call for help is not looked at. -/
def readArguments : List String → Except UsageError (List Argument)
  | [] => .ok []
  | [text] =>
    if asksForHelp text then .ok [.help]
    else
      match ValueFlag.ofName? text with
      | some flag => .error (flag.absentValue text)
      | none => do
        let argument ← Argument.ofSingle text
        .ok [argument]
  | text :: next :: rest =>
    if asksForHelp text then .ok [.help]
    else
      match ValueFlag.ofName? text with
      | some flag => do
        let setting ← flag.setting text next
        let arguments ← readArguments rest
        .ok (.setting setting :: arguments)
      | none => do
        let argument ← Argument.ofSingle text
        let arguments ← readArguments (next :: rest)
        .ok (argument :: arguments)

/-- All options. -/
structure Options where
  /-- Where a rendering goes; empty if nothing is said. -/
  output : String
  /-- What the names of new archives start with. -/
  stem : Option String
  kind : OutputKind
  /-- The number of frames per second, if not that of the script. -/
  frameRate : Option Binary64
  device : DeviceProfile
  /-- The greatest number of files in an archive. -/
  capacity : Binary64
  codec : String
  /-- The program that encodes a video. -/
  program : String
  /-- The number of frames computed at the same time. -/
  concurrency : Binary64
  /-- Whether archives begin with a player program. -/
  player : Bool
  /-- How long a player program waits between frames, in seconds. -/
  delay : Binary64
  /-- The number of the first file in every archive. -/
  firstNumber : Option Binary64
  /-- The displacement of all frames. -/
  originShift : Option (Binary64 × Binary64)
  deriving DecidableEq, Repr

namespace Options

/-- The number of files on a flash drive. -/
def flashDriveCapacity : Nat := 226

/-- The options if nothing is said. -/
def initial : Options where
  output := ""
  stem := none
  kind := .archives
  frameRate := none
  device := .tek4050r12
  capacity := .ofNat flashDriveCapacity
  codec := "mpeg4"
  program := "ffmpeg"
  concurrency := 1
  player := false
  delay := 0
  firstNumber := none
  originShift := none

/-- The options after a setting. -/
def set (options : Options) : Setting → Options
  | .output path => { options with output := path }
  | .stem stem => { options with stem := some stem }
  | .kind kind => { options with kind }
  | .frameRate rate => { options with frameRate := some rate }
  | .device device => { options with device }
  | .capacity count => { options with capacity := count }
  | .codec codec => { options with codec }
  | .program path => { options with program := path }
  | .concurrency count => { options with concurrency := count }
  | .player => { options with player := true }
  | .delay seconds => { options with delay := seconds, player := true }
  | .firstNumber number => { options with firstNumber := some number }
  | .originShift x y => { options with originShift := some (x, y) }

/-- The options after some settings. -/
def ofSettings (settings : List Setting) : Options :=
  settings.foldl set initial

end Options

/-- What is to be done. -/
inductive Task where
  /-- Explain the command line. -/
  | help
  | render (script : String)
  /-- Split an archive anew. -/
  | rechunk (archive : String)
  deriving DecidableEq, Repr

namespace Task

/-- The name of a task. -/
def name : Task → String
  | help => "help"
  | render _ => "render"
  | rechunk _ => "rechunk"

/-- The path of the file that a task starts from; empty if there is none. -/
def input : Task → String
  | help => ""
  | render path | rechunk path => path

/-- The task that a command names, given its input. -/
def ofCommand? : String → Option (String → Task)
  | "render" => some render
  | "rechunk" => some rechunk
  | _ => none

/-- Checks that a rendering has a place to go. -/
def check (options : Options) : Task → Except UsageError Task
  | render script =>
    if options.output.isEmpty then .error .missingOutput else .ok (render script)
  | task => .ok task

/-- The task that positional arguments stand for: a command and its input. -/
def ofPositionals (options : Options) : List String → Except UsageError Task
  | [] => .ok help
  | command :: inputs =>
    match ofCommand? command, inputs with
    | none, _ => .error (.unknownCommand command)
    | some _, [] => .error (.missingInput command)
    | some task, input :: extra =>
      if input.isEmpty then .error (.missingInput command)
      else
        match extra with
        | argument :: _ => .error (.unexpectedArgument argument)
        | [] => (task input).check options

end Task

/-- What a command line asks for. -/
structure CommandLine where
  /-- What is to be done. -/
  task : Task
  /-- How it is to be done. -/
  options : Options
  deriving DecidableEq, Repr

namespace CommandLine

/-- What some arguments ask for. -/
def ofArguments (arguments : List Argument) : Except UsageError CommandLine := do
  let options := Options.ofSettings (arguments.filterMap Argument.setting?)
  if arguments.contains .help then .ok ⟨.help, options⟩
  else
    let task ← Task.ofPositionals options (arguments.filterMap Argument.positional?)
    .ok ⟨task, options⟩

/-- What a command line asks for. -/
def parse (texts : List String) : Except UsageError CommandLine := do
  let arguments ← readArguments texts
  ofArguments arguments

end CommandLine

/-- How the pixels of videos are stored. -/
def defaultPixelFormat : String := "yuv420p"

/-- The output that the options ask for. -/
def Options.target {α : Type} [Scalar α] (options : Options) : OutputTarget α :=
  match options.kind with
  | .raster => .video ⟨options.codec, defaultPixelFormat, options.program⟩
  | .archives =>
    .archives
      { capacity := options.capacity
        device := options.device
        firstNumber := options.firstNumber
        playerDelay := if options.player then some options.delay else none
        originShift := options.originShift.map fun (x, y) =>
          ⟨Scalar.ofBinary64 x, Scalar.ofBinary64 y⟩ }

end Flipbook.Command
