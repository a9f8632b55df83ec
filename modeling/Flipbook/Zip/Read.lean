import Flipbook.Text.Blank
import Flipbook.Text.IndexOrder
import Flipbook.Zip.Directory
import Flipbook.Zip.Inflate

/-!
# Reading zip files

The files that the directory lists are read one after the other. Names are made safe: parts that are
empty or a single point are dropped, and two points drop the part before them. A name may also stand
in an additional field, with the checksum of the name that it replaces. Directories are left out.

## Main definitions

* `read`: the entries of a zip file.
* The instance `Codec`, which writes and reads zip files like that.
-/

namespace Flipbook.Zip

/-- The parts of a name without those that lead nowhere; `..` drops the part before it. -/
def safeParts (kept : List (List Char)) : Bool → List (List Char) → List (List Char)
  | _, [] => kept.reverse
  | isFirst, part :: rest =>
    if part = ['.'] ∨ (part.isEmpty ∧ !isFirst ∧ !rest.isEmpty) then safeParts kept false rest
    else if part = ['.', '.'] then safeParts kept.tail false rest
    else safeParts (part :: kept) false rest

/-- The safe form of a name. -/
def safeName (name : String) : String :=
  String.intercalate "/" ((safeParts [] true (piecesBy (· = '/') name.toList)).map String.ofList)

/-- The content of a file, given how it is compressed. -/
def expand (method : Nat) (size : Int) (raw : List UInt8) : Except String (List UInt8) :=
  let data := if method = 8 then inflate raw else raw
  if (data.length : Int) = size then .ok data
  else .error "Bug : uncompressed data size mismatch"

/-- The text that an additional field has in place of other bytes: behind a version and the checksum
of these bytes. With another version or checksum it does not count. -/
def replacement? (bytes value : List UInt8) : Except String (Option String) :=
  match value with
  | [] => .error "End of data reached"
  | version :: rest =>
    if version ≠ 1 then .ok none
    else if rest.length < 4 then .error "End of data reached"
    else if fromLittleEndian (rest.take 4) ≠ (checksum bytes).toNat then .ok none
    else .ok (some (decodeUtf8 (rest.drop 4)))

namespace DirectoryRecord

/-- The text that bytes of a file stand for, unless an additional field of a kind replaces it. -/
def text (r : DirectoryRecord) (kind : Nat) (bytes : List UInt8) : Except String String :=
  match if r.isUtf8 then none else r.extra? kind with
  | none => .ok (decodeUtf8 bytes)
  | some value => do
    let other ← replacement? bytes value
    .ok (other.getD (decodeUtf8 bytes))

/-- Whether the attributes of DOS say that the file is a directory. -/
def hasDirectoryAttribute (r : DirectoryRecord) : Bool :=
  r.attributes / Nat.pow 2 4 % 2 = 1

/-- Whether the attributes of Unix say that the file is a directory. -/
def hasDirectoryMode (r : DirectoryRecord) : Bool :=
  r.madeBy = 3 && r.attributes / Nat.pow 2 30 % 2 = 1

end DirectoryRecord

/-- A file with its name in the zip file. -/
structure ReadFile where
  listed : Listed
  /-- The name under which the entry is kept; that of a directory ends with a slash. -/
  key : String
  /-- Whether the entry is to be found as a file. -/
  isFile : Bool

/-- Reads a file that the directory lists. -/
def Field.file (r : DirectoryRecord) : Field ReadFile := do
  seek r.offset
  if (← bytes 4) ≠ localMark then throw "Corrupted zip or bug: unexpected signature"
  skip 22
  let nameLength ← unsigned 2
  let extraLength ← unsigned 2
  let name ← bytes nameLength
  skip extraLength
  if r.compressedSize = filled ∨ r.size = filled then throw "Corrupted zip: sizes are missing"
  if r.method ≠ 0 ∧ r.method ≠ 8 then throw "Corrupted zip: compression unknown"
  let raw ← bytes r.compressedSize
  let name ← r.text 0x7075 name
  let _ ← r.text 0x6375 r.comment
  let isFile := !(r.hasDirectoryAttribute || name.endsWith "/")
  let isDirectory := !isFile || r.hasDirectoryMode
  let safe := safeName name
  return {
    listed :=
      { name := safe
        isDirectory
        content := if r.size = 0 then .ok [] else expand r.method r.size raw }
    key := if isDirectory && !safe.endsWith "/" then safe ++ "/" else safe
    isFile }

/-- Adds a file to those that were read. What is to be found as a file must be there as one: if it is
itself a directory, there must be another one of its name. -/
def addFile (files : List ReadFile) (file : ReadFile) : Except String (List ReadFile) :=
  let files := insert ReadFile.key files file
  let isThere (f : ReadFile) : Bool := f.key = file.listed.name && !f.listed.isDirectory
  if file.isFile && file.listed.isDirectory && !files.any isThere then
    .error "A directory is listed as a file"
  else .ok files

/-- All files of a zip file, directories included. -/
def Field.files : Field (List ReadFile) := do
  let records ← directory
  let files ← records.mapM file
  let kept : Except String (List ReadFile) := files.foldlM addFile []
  kept

/-- The entries of a zip file that are no directories, as they are listed. -/
def read (bytes : List UInt8) : Except String (List Listed) := do
  let (files, _) ← Field.files.run { content := bytes.toArray, zero := 0, index := 0 }
  .ok (((indexesFirst ReadFile.key files).map ReadFile.listed).filter fun e => !e.isDirectory)

instance : Codec where
  write := write
  read := read

end Flipbook.Zip
