import Flipbook.Archive.Pack
import Flipbook.Device.R12

/-!
# Tape records

The commands of a drawing are read from tape in records of limited size. A record has two bytes of
length, the commands, and a zero byte. Every record but the first one begins with the last command
of the record before, as a move that does not draw, so that the pen goes on where it was. A record
that holds the letter `X` ends the drawing.
-/

namespace Flipbook.Device

/-- The number of command bytes that fill a record. -/
def recordSize : Nat := 8175

/-- The record at which the player stops reading. -/
def endOfTape : List UInt8 :=
  [0x40, 0x01, 0x58, 0x68]

/-- The last command of some commands, as a move that does not draw. -/
def resumeAt (commands : List UInt8) : List UInt8 :=
  match commands.reverse with
  | y :: x :: high :: _ => [high ||| goToFlag.toUInt8, x, y]
  | _ => []

/-- The contents of the records behind a piece of the commands. -/
def resumed : List UInt8 → List (List UInt8) → List (List UInt8)
  | _, [] => []
  | previous, piece :: rest => (resumeAt previous ++ piece) :: resumed piece rest

/-- The contents of the records. -/
def recordContents (commands : List UInt8) : List (List UInt8) :=
  match chunks recordSize commands with
  | [] => []
  | piece :: rest => piece :: resumed piece rest

/-- A record with its length and the byte that ends it. -/
def tapeRecord (content : List UInt8) : List UInt8 :=
  [(0x40 + content.length / 256).toUInt8, (content.length % 256).toUInt8] ++ content ++ [0]

/-- The tape records of a drawing. -/
def tapeRecords (commands : List UInt8) : List UInt8 :=
  (recordContents commands).flatMap tapeRecord ++ endOfTape

end Flipbook.Device
