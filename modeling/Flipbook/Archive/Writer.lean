import Flipbook.Archive.Pack

/-!
# Writing an archive set as it grows

A writer packs files as they arrive. Whenever an archive is full, and when the set is closed, the
writer hands over an archive to be stored. The caller reports back which archives were stored: those
make up the set.

## Main definitions

* `ArchiveWriter.add`, `ArchiveWriter.close`: what a file or the end of the set leads to.
* `ArchiveWriter.stored`: an archive was stored.
-/

namespace Flipbook

/-- The state of an archive set under way. -/
structure ArchiveWriter where
  /-- How files are packed. -/
  options : PackOptions
  /-- The places for frames in each archive. -/
  layout : ArchiveLayout
  /-- The files for the next archive. -/
  current : List ArchiveEntry
  archiveIndex : Nat
  /-- The number of files so far. -/
  count : Nat
  closed : Bool
  /-- The archives that were stored. -/
  archives : List PackedArchive
  deriving DecidableEq, Repr

namespace ArchiveWriter

/-- A writer without files, if the options make sense. -/
def start (options : PackOptions) : Except OutputError ArchiveWriter := do
  let layout ← options.layout
  .ok { options, layout, current := [], archiveIndex := 0, count := 0, closed := false,
        archives := [] }

/-- Makes an archive of the files at hand, if there are any. -/
def flush (writer : ArchiveWriter) : Except OutputError (ArchiveWriter × Option PackedArchive) :=
  if writer.current.isEmpty then .ok (writer, none)
  else do
    let archive ← sealArchive writer.options writer.archiveIndex writer.current
    .ok ({ writer with current := [], archiveIndex := writer.archiveIndex + 1 }, some archive)

/-- Adds a file. The archive that it fills is to be stored. -/
def add (writer : ArchiveWriter) (file : FrameFile) :
    Except OutputError (ArchiveWriter × Option PackedArchive) :=
  if writer.closed then .error .setClosed
  else if file.data.isEmpty then .error (.emptyFile (.ofNat (writer.count + 1)))
  else do
    let entry ← writer.layout.entry writer.options.naming writer.count file
    let next :=
      { writer with current := writer.current ++ [entry], count := writer.count + 1 }
    if next.current.length = next.layout.framesPerArchive then next.flush else .ok (next, none)

/-- Ends the set. What is left makes up a last, shorter archive. -/
def close (writer : ArchiveWriter) : Except OutputError (ArchiveWriter × Option PackedArchive) :=
  if writer.closed then .ok (writer, none) else { writer with closed := true }.flush

/-- Notes that an archive was stored. -/
def stored (writer : ArchiveWriter) (archive : PackedArchive) : ArchiveWriter :=
  { writer with archives := writer.archives ++ [archive] }

end ArchiveWriter

end Flipbook
