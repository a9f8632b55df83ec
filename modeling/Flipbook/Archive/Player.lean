import Flipbook.Archive.Naming
import Flipbook.Text.Utf8

/-!
# Player programs

An archive may begin with a program that plays the frame files behind it, one after the other, on
the machine with the R12 graphics. The program is a text of numbered lines. It is told the frames
that it plays in two of them: `LET F=`, which holds the number before the first frame, since the
program counts before it reads, and `IF F>`, which holds the last one.

## Main definitions

* `buildPlayerProgram`: the program for a range of frames.
* `playerBounds`, `setPlayerBounds`: the frames that a program plays, and the same program for
  other ones.
* `Player.file`: the file that leads an archive.
-/

namespace Flipbook

/-- The numbers of the first and the last file that a program plays. -/
structure FrameBounds where
  firstFrame : Binary64
  lastFrame : Binary64
  deriving DecidableEq, Repr

/-- The label of a player program. -/
def playerLabel : String :=
  "PROG Animation player"

/-- The lines of a player program. With a delay, each frame triggers the camera and then waits so
many seconds; without one, the program waits for a key. -/
def playerLines (bounds : FrameBounds) (delay : Binary64) : List String :=
  let automated := Binary64.lt 0 delay
  let remark := if automated then "" else "REM "
  ["1 GO TO 100",
    "4 GO TO 130",
    "100 INIT",
    "110 DIM S$(8190)",
    "120 LET F=" ++ (bounds.firstFrame - 1).text,
    "130 F=F+1",
    "140 IF F>" ++ bounds.lastFrame.text ++ " THEN 240",
    "150 FIND@5:F",
    "160 PAGE",
    "170 READ@5:S$",
    "180 IF S$=\"X\" THEN " ++ (if automated then "210" else "260"),
    "190 CALL \"RDRAW\",S$,1,0,0",
    "200 GO TO 170",
    "210 " ++ remark ++ " PRINT @53:\"AAAA\"",
    "220 " ++ remark ++ " CALL \"!PAUSE\"," ++ delay.text,
    "230 GO TO 130",
    "240 HOME",
    "250 PRINT \"No more frames\"",
    "260 END ",
    "",
    ""]

/-- The player program for a range of frames. Its lines end with carriage returns. -/
def buildPlayerProgram (bounds : FrameBounds) (delay : Binary64) : List UInt8 :=
  encodeLatin1 (String.intercalate "\r" (playerLines bounds delay)).toList

/-- How a number is marked in a program: by the text between it and the line number, and by the text
behind it. -/
structure Marker where
  /-- The text between the line number and the number. -/
  before : List Char
  /-- The text behind the number. -/
  after : List Char
  deriving DecidableEq, Repr

/-- The mark of a frame number. -/
def PlayerBound.marker : PlayerBound → Marker
  | first => ⟨" LET F=".toList, []⟩
  | last => ⟨" IF F>".toList, " THE".toList⟩

/-- A part of a program: a character, or a marked number. -/
inductive ProgramPart where
  /-- A character outside all marked numbers. -/
  | char (c : Char)
  | marked (line number : List Char)
  deriving DecidableEq, Repr

namespace Marker

/-- Splits a marked number off the start of a program. -/
def splitMarked? (marker : Marker) (cs : List Char) : Option (List Char × List Char × List Char) :=
  let (line, afterLine) := splitRun Char.isDigit cs
  if line.isEmpty then none
  else
    match dropStart? marker.before afterLine with
    | none => none
    | some body =>
      let (number, afterNumber) := splitRun Char.isDigit body
      if number.isEmpty then none
      else (dropStart? marker.after afterNumber).map fun rest => (line, number, rest)

/-- The parts of a program of at most `fuel` characters. -/
def partsOf (marker : Marker) : Nat → List Char → List ProgramPart
  | 0, _ => []
  | _, [] => []
  | fuel + 1, c :: cs =>
    match marker.splitMarked? (c :: cs) with
    | some (line, number, rest) => .marked line number :: marker.partsOf fuel rest
    | none => .char c :: marker.partsOf fuel cs

/-- The parts of a program. -/
def parts (marker : Marker) (program : List Char) : List ProgramPart :=
  marker.partsOf program.length program

/-- The marked numbers of a program. -/
def numbers (marker : Marker) (program : List Char) : List (List Char) :=
  (marker.parts program).filterMap fun
    | .char _ => none
    | .marked _ number => some number

/-- The program with another number in every marked place. -/
def replace (marker : Marker) (text : List Char) (program : List Char) : List Char :=
  (marker.parts program).flatMap fun
    | .char c => [c]
    | .marked line _ => line ++ marker.before ++ text ++ marker.after

end Marker

/-- The marked number of a program, which must be the only one. -/
def markedNumber (bound : PlayerBound) (program : List Char) : Except OutputError (List Char) :=
  match bound.marker.numbers program with
  | [number] => .ok number
  | _ => .error (.playerBoundNotFound bound)

/-- The frames that a program plays. -/
def playerBounds (program : List UInt8) : Except OutputError FrameBounds := do
  let text := decodeLatin1 program
  let first ← markedNumber .first text
  let last ← markedNumber .last text
  .ok ⟨digitsNumber first + 1, digitsNumber last⟩

/-- The program that plays other frames and is otherwise the same. -/
def setPlayerBounds (program : List UInt8) (bounds : FrameBounds) :
    Except OutputError (List UInt8) := do
  let text := decodeLatin1 program
  let _ ← markedNumber .first text
  let _ ← markedNumber .last text
  let text := PlayerBound.first.marker.replace (bounds.firstFrame - 1).text.toList text
  .ok (encodeLatin1 (PlayerBound.last.marker.replace bounds.lastFrame.text.toList text))

/-- The file of a player program. -/
def playerFile (program : List UInt8) : FrameFile where
  type := "ASCII"
  label := playerLabel
  extension := "bas"
  data := program

/-- Whether a file is a player program, by its type and its label. Small and capital letters of the
label are alike; no character outside ASCII has a small letter that occurs in it. -/
def isPlayerFile (file : FrameFile) : Bool :=
  decide (file.type = "ASCII") && decide (file.label.toLower = playerLabel.toLower)

/-- Where the player program of an archive comes from. -/
inductive Player where
  /-- A new program, with a delay in seconds between frames. -/
  | fresh (delay : Binary64)
  /-- An existing program, whose settings are kept. -/
  | existing (program : List UInt8)
  deriving DecidableEq, Repr

namespace Player

/-- A new program. The delay must be a finite number of seconds. -/
def ofDelay (delay : Binary64) : Except OutputError Player :=
  if !delay.isFinite || delay.lt 0 then .error (.delayNegative delay) else .ok (fresh delay)

/-- An existing program, in which the frames that it plays can be found. -/
def ofProgram (program : List UInt8) : Except OutputError Player := do
  let _ ← playerBounds program
  .ok (existing program)

/-- The player file for a range of frames. -/
def file (player : Player) (bounds : FrameBounds) : Except OutputError FrameFile :=
  match player with
  | fresh delay => .ok (playerFile (buildPlayerProgram bounds delay))
  | existing program => playerFile <$> setPlayerBounds program bounds

end Player

end Flipbook
