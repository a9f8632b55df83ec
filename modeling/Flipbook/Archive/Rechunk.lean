import Flipbook.Archive.Pack
import Flipbook.Storage.Path
import Flipbook.Zip.Entry

/-!
# Splitting an existing archive anew

The files of an archive are packed again, as if they had been packed so in the first place. If the
archive has a player program, only the frames that it plays are kept, and every new archive gets a
copy of the program for its own frames, unless another player is asked for.

## Main definitions

* `readArchiveFiles`: the numbered files of an archive.
* `playedFrames`: whether all frames that a program plays are there.
* `rechunk`: the new archives.
-/

namespace Flipbook

/-- Reads an entry as a numbered file. The last part of its name must follow the naming. -/
def readArchiveFile (naming : Naming) (e : Zip.Listed) : Except Error SequenceFile :=
  match naming.parse (baseName e.name) with
  | none => .error (.output (.unrecognisedName e.name))
  | some parsed =>
    match e.content with
    | .error reason => .error (.system reason)
    | .ok data =>
      .ok ⟨parsed.number, ⟨parsed.type, parsed.label, parsed.extension, data⟩⟩

/-- The numbered files of an archive, in the order in which the archive lists them. -/
def readArchiveFiles [Zip.Codec] (naming : Naming) (bytes : List UInt8) :
    Except Error (List SequenceFile) :=
  match Zip.Codec.read bytes with
  | .error reason => .error (.output (.unreadableArchive reason))
  | .ok entries => entries.mapM (readArchiveFile naming)

/-- The outcome of looking for the frames that a program plays. -/
inductive Playback where
  /-- All of them are there. -/
  | complete
  /-- One of them is missing. -/
  | missing (number : Binary64)
  /-- Counting does not reach the last frame, since a number is its own successor. -/
  | endless
  deriving DecidableEq, Repr

/-- Counts from a number up to the last one, looking each number up, at most `fuel` times. -/
def playFrom (present : List Binary64) (last : Binary64) : Nat → Binary64 → Playback
  | 0, _ => .endless
  | fuel + 1, n =>
    if n.le last then
      if present.contains n then playFrom present last fuel (n + 1) else .missing n
    else .complete

/-- Looks up the frames that a program plays. Counting meets each number that is present at most
once, unless it stalls. -/
def playedFrames (present : List Binary64) (bounds : FrameBounds) : Playback :=
  playFrom present bounds.lastFrame (present.length + 1) bounds.firstFrame

/-- Packs the files of an archive with one player program. -/
def rechunkPlayed (files : List SequenceFile) (program : List UInt8) (options : PackOptions) :
    Except OutputError (List PackedArchive) := do
  let bounds ← playerBounds program
  let frames := files.filter fun f =>
    !isPlayerFile f.file && bounds.firstFrame.le f.number && f.number.le bounds.lastFrame
  match playedFrames (frames.map SequenceFile.number) bounds with
  | .missing n => .error (.playedFileMissing n)
  | .endless => .error (.endlessPlayback bounds.lastFrame)
  | .complete =>
    let player ←
      match options.player with
      | some player => .ok player
      | none => Player.ofProgram program
    packSequence frames { options with player := some player }

/-- Packs the files of an archive anew. -/
def rechunkFiles (files : List SequenceFile) (options : PackOptions) :
    Except OutputError (List PackedArchive) :=
  match files.filter fun f => isPlayerFile f.file with
  | [] => packSequence files options
  | [player] => rechunkPlayed files player.file.data options
  | _ => .error .severalPlayers

/-- Packs the entries of an archive anew. The options are checked before the archive is read. -/
def rechunkEntries (entries : Except Error (List SequenceFile)) (options : PackOptions) :
    Except Error (List PackedArchive) :=
  match options.layout with
  | .error e => .error (.output e)
  | .ok _ =>
    match entries with
    | .error e => .error e
    | .ok files => (rechunkFiles files options).mapError .output

/-- Splits an archive anew. -/
def rechunk [Zip.Codec] (bytes : List UInt8) (options : PackOptions) :
    Except Error (List PackedArchive) :=
  rechunkEntries (readArchiveFiles options.naming bytes) options

/-- The zip file of an archive. -/
def PackedArchive.toZip [Zip.Codec] (archive : PackedArchive) : List UInt8 :=
  Zip.Codec.write (archive.entries.map fun e => ⟨e.name, e.data⟩)

end Flipbook
