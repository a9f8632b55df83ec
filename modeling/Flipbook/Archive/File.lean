import Flipbook.Number.Text

/-!
# Files of an archive

A frame file is what a device makes of a frame. In an archive it has a number, which orders the
files, and a name, which is made of the number and the properties of the file.
-/

namespace Flipbook

/-- The file that a frame is stored in. -/
structure FrameFile where
  /-- The type of the tape file, such as `BINARY`. -/
  type : String
  /-- The name of the tape file. -/
  label : String
  /-- The extension of the file on a disk. -/
  extension : String
  data : List UInt8
  deriving DecidableEq, Repr

/-- A file with its place in a sequence. -/
structure SequenceFile where
  number : Binary64
  file : FrameFile
  deriving DecidableEq, Repr

/-- A file of an archive. -/
structure ArchiveEntry where
  number : Binary64
  name : String
  data : List UInt8
  deriving DecidableEq, Repr

/-- An archive of an archive set. -/
structure PackedArchive where
  /-- The place of the archive in the set. -/
  index : Nat
  name : String
  /-- The files, in order. -/
  entries : List ArchiveEntry
  deriving DecidableEq, Repr

end Flipbook
