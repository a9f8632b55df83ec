import Flipbook.Archive.Player
import Flipbook.Archive.Sorting
import Flipbook.Archive.Suffix

/-!
# Packing files into archives

A sequence of files without gaps is split into archives of at most `capacity` files. In every
archive the numbers start again. With a player, each archive starts with a program for its own
frames, which takes one of the places.

## Main definitions

* `PackOptions.layout`: the places for frames in each archive, if the options make sense.
* `packSequence`: the archives of a sequence of files.
-/

namespace Flipbook

/-- How files are packed. -/
structure PackOptions where
  /-- The greatest number of files in an archive. -/
  capacity : Binary64
  /-- How the files are named. -/
  naming : Naming
  /-- What the names of the archives start with. -/
  stem : String
  /-- The number of the first file in every archive, 1 if absent. -/
  firstNumber : Option Binary64
  /-- The player program that leads every archive. -/
  player : Option Player
  deriving DecidableEq, Repr

/-- The places for frames in each archive. -/
structure ArchiveLayout where
  /-- The greatest number of frames. -/
  framesPerArchive : Nat
  firstFrameNumber : Binary64
  deriving DecidableEq, Repr

/-- The positive integer that a number is, if it is one. -/
def Binary64.positive? (n : Binary64) : Option Nat :=
  n.toNat?.filter fun k => 0 < k

/-- The places for frames, if the capacity and the first number are positive integers, and there is
room for a frame behind the player. -/
def PackOptions.layout (options : PackOptions) : Except OutputError ArchiveLayout :=
  let firstNumber := options.firstNumber.getD 1
  match options.capacity.positive? with
  | none => .error (.capacityNotPositive options.capacity)
  | some capacity =>
    match firstNumber.positive? with
    | none => .error (.firstNumberNotPositive firstNumber)
    | some _ =>
      if options.player.isNone then .ok ⟨capacity, firstNumber⟩
      else if capacity < 2 then .error (.noRoomForFrames options.capacity)
      else .ok ⟨capacity - 1, firstNumber + 1⟩

/-- A file as an entry with a number. -/
def FrameFile.toEntry (file : FrameFile) (number : Binary64) (naming : Naming) :
    Except OutputError ArchiveEntry := do
  let name ← naming.format number file
  .ok ⟨number, name, file.data⟩

/-- The number of the file at a position of the sequence, in its archive. -/
def ArchiveLayout.numberAt (layout : ArchiveLayout) (position : Nat) : Binary64 :=
  layout.firstFrameNumber - 1 + .ofNat (position % layout.framesPerArchive + 1)

/-- The entry of the file at a position of the sequence. -/
def ArchiveLayout.entry (layout : ArchiveLayout) (naming : Naming) (position : Nat)
    (file : FrameFile) : Except OutputError ArchiveEntry :=
  file.toEntry (layout.numberAt position) naming

/-- The frames of an archive with the player program that plays them. -/
def withPlayer (options : PackOptions) (frames : List ArchiveEntry) :
    Except OutputError (List ArchiveEntry) :=
  match options.player, frames.head?, frames.getLast? with
  | some player, some first, some last => do
    let file ← player.file ⟨first.number, last.number⟩
    let entry ← file.toEntry (first.number - 1) options.naming
    .ok (entry :: frames)
  | _, _, _ => .ok frames

/-- The archive with an index that holds some frames. -/
def sealArchive (options : PackOptions) (index : Nat) (frames : List ArchiveEntry) :
    Except OutputError PackedArchive := do
  let entries ← withPlayer options frames
  .ok ⟨index, archiveName options.stem (String.ofList (suffixChars index)), entries⟩

/-- What is wrong with a file, given the number of the file before it. -/
def fileFault (previous : Option Binary64) (f : SequenceFile) : Option OutputError :=
  match previous with
  | some p =>
    if f.number.same p then some (.duplicateFile f.number)
    else if !f.number.same (p + 1) then some (.missingFile (p + 1))
    else if f.file.data.isEmpty then some (.emptyFile f.number) else none
  | none => if f.file.data.isEmpty then some (.emptyFile f.number) else none

/-- The first thing that is wrong with a sorted sequence: a number that is repeated or left out, or
a file without content. -/
def sequenceFault : Option Binary64 → List SequenceFile → Option OutputError
  | _, [] => none
  | previous, f :: rest => (fileFault previous f).or (sequenceFault (some f.number) rest)

/-- Splits a list into pieces of a length; the last one may be shorter. -/
def chunks {β : Type} (size : Nat) (xs : List β) : List (List β) :=
  if size = 0 ∨ xs.isEmpty then [] else xs.take size :: chunks size (xs.drop size)
termination_by xs.length
decreasing_by
  rename_i h
  rw [not_or] at h
  have : xs.length ≠ 0 := by
    intro h0
    exact h.2 (by simp [List.eq_nil_of_length_eq_zero h0])
  simp only [List.length_drop]
  omega

/-- Packs a sequence of files, in any order, into archives. Everything is checked before the first
archive is made. -/
def packSequence (files : List SequenceFile) (options : PackOptions) :
    Except OutputError (List PackedArchive) := do
  let layout ← options.layout
  let sorted := sortByNumber files
  match sequenceFault none sorted with
  | some e => .error e
  | none =>
    let entries ← sorted.zipIdx.mapM fun (f, position) =>
      layout.entry options.naming position f.file
    (chunks layout.framesPerArchive entries).zipIdx.mapM fun (frames, index) =>
      sealArchive options index frames

end Flipbook
