import Flipbook.Archive.Rechunk
import Flipbook.Archive.Writer

/-!
# Storing archives

A store takes the zip files of archives by name. It may refuse any of them; what it was given before
stays.

## Main definitions

* `ArchiveStore`: a place for archives, with a state of its own.
* `memoryStore`: a store that keeps what it is given, and may refuse some of it.
* `ArchiveSet.add`, `ArchiveSet.close`: a writer whose archives go to a store.
* `storeArchives`: stores archives one after the other.
-/

namespace Flipbook

/-- A place for archives. -/
structure ArchiveStore (σ : Type) where
  /-- Stores a file under a name, or says why it cannot. -/
  put : σ → String → List UInt8 → σ × Except Error Unit

/-- What a store in memory was given. -/
structure StoreLog where
  /-- The number of files that it was asked to take. -/
  requests : Nat
  /-- The files that it took, by name, in order. -/
  taken : List (String × List UInt8)
  deriving DecidableEq, Repr

/-- What a new store in memory was given. -/
def StoreLog.empty : StoreLog :=
  ⟨0, []⟩

/-- A store in memory, which refuses requests by their number. -/
def memoryStore (refusal : Nat → Option Error) : ArchiveStore StoreLog where
  put log name data :=
    match refusal log.requests with
    | some e => ({ log with requests := log.requests + 1 }, .error e)
    | none => (⟨log.requests + 1, log.taken ++ [(name, data)]⟩, .ok ())

/-- An archive set under way, with the state of the store that its archives go to. -/
structure ArchiveSet (σ : Type) where
  writer : ArchiveWriter
  stored : σ

/-- The outcome of an operation on an archive set. -/
structure SetOutcome where
  result : Except Error Unit
  /-- Whether an archive was handed to the store. -/
  handedOver : Bool

namespace ArchiveSet

variable {σ : Type} [Zip.Codec]

/-- Hands an archive to the store, and notes it if it is accepted. -/
def deliver (store : ArchiveStore σ) (state : σ) (writer : ArchiveWriter)
    (archive : PackedArchive) : ArchiveSet σ × SetOutcome :=
  match store.put state archive.name archive.toZip with
  | (state, .ok ()) => (⟨writer.stored archive, state⟩, ⟨.ok (), true⟩)
  | (state, .error e) => (⟨writer, state⟩, ⟨.error e, true⟩)

/-- Takes over the outcome of an operation of the writer. -/
def follow (store : ArchiveStore σ) (set : ArchiveSet σ) :
    Except OutputError (ArchiveWriter × Option PackedArchive) → ArchiveSet σ × SetOutcome
  | .error e => (set, ⟨.error (.output e), false⟩)
  | .ok (writer, none) => ({ set with writer }, ⟨.ok (), false⟩)
  | .ok (writer, some archive) => deliver store set.stored writer archive

/-- Adds a file; an archive that is full goes to the store. -/
def add (store : ArchiveStore σ) (set : ArchiveSet σ) (file : FrameFile) :
    ArchiveSet σ × SetOutcome :=
  set.follow store (set.writer.add file)

/-- Adds files, up to the first that is refused. -/
def addAll (store : ArchiveStore σ) (set : ArchiveSet σ) :
    List FrameFile → ArchiveSet σ × Except Error Unit
  | [] => (set, .ok ())
  | file :: rest =>
    let (set, outcome) := set.add store file
    match outcome.result with
    | .ok () => set.addAll store rest
    | .error e => (set, .error e)

/-- Ends the set; what is left goes to the store. -/
def close (store : ArchiveStore σ) (set : ArchiveSet σ) : ArchiveSet σ × SetOutcome :=
  set.follow store set.writer.close

end ArchiveSet

/-- Stores archives one after the other, up to the first that is refused. -/
def storeArchives {σ : Type} [Zip.Codec] (store : ArchiveStore σ) (state : σ) :
    List PackedArchive → σ × Except Error Unit
  | [] => (state, .ok ())
  | archive :: rest =>
    match store.put state archive.name archive.toZip with
    | (state, .ok ()) => storeArchives store state rest
    | (state, .error e) => (state, .error e)

end Flipbook
