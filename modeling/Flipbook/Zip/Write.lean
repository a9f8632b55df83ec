import Flipbook.Text.Utf8
import Flipbook.Zip.Checksum
import Flipbook.Zip.Entry

/-!
# Writing zip files

Contents are stored as they are, without compression. All files carry the first date that the format
can express, so that equal contents make equal files. An entry without a name cannot be written, and
is left out.
-/

namespace Flipbook.Zip

/-- A number in a given count of bytes, the lowest first. -/
def littleEndian : Nat → Nat → List UInt8
  | 0, _ => []
  | count + 1, n => n.toUInt8 :: littleEndian count (n / 256)

/-- The mark in front of a stored file. -/
def localMark : List UInt8 := [0x50, 0x4B, 0x03, 0x04]

/-- The mark in front of an entry of the directory. -/
def directoryMark : List UInt8 := [0x50, 0x4B, 0x01, 0x02]

/-- The mark in front of the end record. -/
def endMark : List UInt8 := [0x50, 0x4B, 0x05, 0x06]

/-- What both headers of a file have in common: the version needed, the flag for UTF-8 names, no
compression, the date, the checksum, the size before and after compression, the length of the name,
and no extra field. -/
def commonHeader (e : Entry) : List UInt8 :=
  littleEndian 2 20 ++ littleEndian 2 0x800 ++ littleEndian 2 0 ++ littleEndian 2 0 ++
    littleEndian 2 0x21 ++ littleEndian 4 (checksum e.data).toNat ++ littleEndian 4 e.data.length ++
    littleEndian 4 e.data.length ++ littleEndian 2 (encodeUtf8 e.name).length ++ littleEndian 2 0

/-- A stored file. -/
def localFile (e : Entry) : List UInt8 :=
  localMark ++ commonHeader e ++ encodeUtf8 e.name ++ e.data

/-- The entry of the directory for a file that is stored at an offset. -/
def directoryEntry (e : Entry) (offset : Nat) : List UInt8 :=
  directoryMark ++ littleEndian 2 20 ++ commonHeader e ++ littleEndian 2 0 ++ littleEndian 2 0 ++
    littleEndian 2 0 ++ littleEndian 4 0 ++ littleEndian 4 offset ++ encodeUtf8 e.name

/-- The end record of a file with so many entries and a directory of some size at an offset. -/
def endRecord (count size offset : Nat) : List UInt8 :=
  endMark ++ littleEndian 2 0 ++ littleEndian 2 0 ++ littleEndian 2 count ++ littleEndian 2 count ++
    littleEndian 4 size ++ littleEndian 4 offset ++ littleEndian 2 0

/-- The offsets at which files of the given sizes start. -/
def offsets : Nat → List Nat → List Nat
  | _, [] => []
  | start, size :: rest => start :: offsets (start + size) rest

/-- The zip file of some entries. -/
def write (entries : List Entry) : List UInt8 :=
  let entries := collect (entries.filter fun e => e.name ≠ "")
  let files := entries.map localFile
  let starts := offsets 0 (files.map List.length)
  let directory := (List.zipWith directoryEntry entries starts).flatten
  let body := files.flatten
  body ++ directory ++ endRecord entries.length directory.length body.length

end Flipbook.Zip
