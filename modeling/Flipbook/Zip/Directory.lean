import Flipbook.Text.Utf8
import Flipbook.Zip.Checksum
import Flipbook.Zip.Cursor
import Flipbook.Zip.Write

/-!
# The directory of a zip file

The end record says where the directory is, and the directory where the files are. Bytes in front of
the first file are allowed; then all offsets are off by their number. Where a number does not fit
into its field, the field is filled with ones, and the number stands in a longer record.

## Main definitions

* `EndRecord`, `DirectoryRecord`: what the end record and the directory say.
* `Field.directory`: reads both.
-/

namespace Flipbook.Zip

/-- The mark of the record that says where the long end record is. -/
def locatorMark : List UInt8 := [0x50, 0x4B, 0x06, 0x07]

/-- The mark of the long end record. -/
def longEndMark : List UInt8 := [0x50, 0x4B, 0x06, 0x06]

/-- The number that fills a field with ones. -/
def filled : Int := -1

/-- What the end record says. -/
structure EndRecord where
  /-- The number of files. -/
  count : Int
  size : Int
  offset : Int
  /-- The number of bytes between the directory and the end record. -/
  between : Int

/-- An additional field of a file: its kind and its value. -/
abbrev ExtraField : Type := Nat × List UInt8

/-- What the directory says about a file. -/
structure DirectoryRecord where
  /-- The system that the attributes are for. -/
  madeBy : Nat
  /-- Whether names and comments are UTF-8 text. -/
  isUtf8 : Bool
  /-- How the content is compressed. -/
  method : Nat
  compressedSize : Int
  size : Int
  attributes : Nat
  /-- Where the file starts. -/
  offset : Int
  extras : List ExtraField
  comment : List UInt8

/-- The value of the additional field of a kind; of several ones the last counts. -/
def DirectoryRecord.extra? (r : DirectoryRecord) (kind : Nat) : Option (List UInt8) :=
  (r.extras.reverse.find? fun e => e.1 = kind).map Prod.snd

/-- A number that stands in an additional field if its own field is filled, with the rest of the
additional field. -/
def widen (n : Int) (value : List UInt8) : Except String (Int × List UInt8) :=
  if n ≠ filled then .ok (n, value)
  else if value.length < 8 then .error "End of data reached"
  else .ok (signed32 (fromLittleEndian (value.take 8)), value.drop 8)

/-- Reads the numbers that stand in the additional field for long ones. -/
def DirectoryRecord.widened (r : DirectoryRecord) : Except String DirectoryRecord :=
  match r.extra? 0x0001 with
  | none => .ok r
  | some value => do
    let (size, value) ← widen r.size value
    let (compressedSize, value) ← widen r.compressedSize value
    let (offset, _) ← widen r.offset value
    .ok { r with size, compressedSize, offset }

namespace Field

/-- The long end record, which its locator leads to. If it is not there, it is looked for. -/
def longEndRecord : Field EndRecord := do
  let content := (← get).content
  match lastMark locatorMark content (content.size - 4) with
  | none => throw "Corrupted zip: can't find the ZIP64 end of central directory locator"
  | some locator =>
    seek (locator + 8)
    let place ← signed 8
    let disks ← signed 4
    if 1 < disks then throw "Multi-volumes zip are not supported"
    let expected ← isMarked place longEndMark
    let found := (lastMark longEndMark content (content.size - 4)).map Int.ofNat
    match if expected then some place else found with
    | none => throw "Corrupted zip: can't find the ZIP64 end of central directory"
    | some place =>
      seek (place + 4)
      let recordSize ← signed 8
      skip 20
      let count ← signed 8
      let size ← signed 8
      let offset ← signed 8
      if 44 < recordSize then throw "End of data reached"
      return { count, size, offset, between := 32 + recordSize }

/-- The end record, behind its mark. -/
def endRecord : Field EndRecord := do
  let disk ← unsigned 2
  let startDisk ← unsigned 2
  let diskCount ← unsigned 2
  let count ← unsigned 2
  let size ← signed 4
  let offset ← signed 4
  let commentLength ← unsigned 2
  skip commentLength
  if [disk, startDisk, diskCount, count].contains 0xFFFF ∨ size = filled ∨ offset = filled then
    longEndRecord
  else return { count, size, offset, between := 0 }

/-- The additional fields up to a place, at most `fuel` of them. -/
def extraFields (stop : Int) : Nat → Field (List ExtraField)
  | 0 => return []
  | fuel + 1 => do
    if (← get).index + 4 < stop then
      let kind ← unsigned 2
      let length ← unsigned 2
      let value ← bytes length
      let rest ← extraFields stop fuel
      return (kind, value) :: rest
    else return []

/-- An entry of the directory, behind its mark. Its name is skipped: that of the file counts. -/
def directoryRecord : Field DirectoryRecord := do
  let version ← unsigned 2
  skip 2
  let flags ← unsigned 2
  let method ← unsigned 2
  skip 8
  let compressedSize ← signed 4
  let size ← signed 4
  let nameLength ← unsigned 2
  let extraLength ← unsigned 2
  let commentLength ← unsigned 2
  skip 4
  let attributes ← unsigned 4
  let offset ← signed 4
  if flags % 2 = 1 then throw "Encrypted zip are not supported"
  skip nameLength
  let stop := (← get).index + extraLength
  let extras ← extraFields stop extraLength
  seek stop
  let r : DirectoryRecord :=
    { madeBy := version / 256, isUtf8 := flags / Nat.pow 2 11 % 2 = 1, method, compressedSize, size,
      attributes, offset, extras, comment := [] }
  let r ← r.widened
  let comment ← bytes commentLength
  return { r with comment }

/-- The entries of the directory, at most `fuel` of them. -/
def directoryRecords : Nat → Field (List DirectoryRecord)
  | 0 => throw "End of data reached"
  | fuel + 1 => do
    if (← bytes 4) = directoryMark then
      let r ← directoryRecord
      let rest ← directoryRecords fuel
      return r :: rest
    else return []

/-- The directory. What the end records leave unaccounted for precedes the first file. -/
def directory : Field (List DirectoryRecord) := do
  let content := (← get).content
  match lastMark endMark content (content.size - 4) with
  | none => throw "Can't find end of central directory"
  | some place =>
    seek (place + 4)
    let e ← endRecord
    let extra := (place : Int) - (e.offset + e.size + e.between)
    if extra < 0 then throw "Corrupted zip: missing bytes"
    modify fun c => { c with zero := extra.toNat }
    seek e.offset
    let records ← directoryRecords (content.size + 1)
    if e.count ≠ 0 ∧ records.isEmpty then throw "Corrupted zip or bug: expected records"
    return records

end Field

end Flipbook.Zip
