import Flipbook.Error
import Flipbook.Storage.Path

/-!
# Files in directories

A file tree is what a run of the program finds on a disk and leaves there. Files are read by paths,
and written in two steps: under a temporary name in the same directory, and then renamed, so that a
reader never meets half of a file.

## Main definitions

* `FileTree`: files and directories by their paths.
* `FileTree.read`, `FileTree.holds`: what a path leads to.
* `FileTree.store`: writes a file.
-/

namespace Flipbook

/-- Reasons why a path does not lead where it should. -/
inductive FileFault where
  /-- There is nothing. -/
  | missing
  /-- There is a file where a directory is needed. -/
  | notDirectory
  /-- There is a directory where a file is needed. -/
  | isDirectory
  /-- There is a file where a directory is to be made. -/
  | taken
  /-- A path or a part of it has too many bytes. -/
  | nameTooLong
  deriving DecidableEq, Repr

/-- The wording of a fault. -/
def FileFault.message : FileFault → String
  | missing => "ENOENT: no such file or directory"
  | notDirectory => "ENOTDIR: not a directory"
  | isDirectory => "EISDIR: illegal operation on a directory"
  | taken => "EEXIST: file already exists"
  | nameTooLong => "ENAMETOOLONG: name too long"

/-- What is done with files. -/
inductive FileOperation where
  /-- Reads what was opened. -/
  | read
  | openFile (path : String)
  | makeDirectory (path : String)
  /-- Looks for a file that is to be removed. -/
  | inspect (path : String)
  /-- Gives a file another name. -/
  | rename (source target : String)
  deriving DecidableEq, Repr

/-- The wording of an operation. -/
def FileOperation.message : FileOperation → String
  | read => "read"
  | openFile path => "open '" ++ path ++ "'"
  | makeDirectory path => "mkdir '" ++ path ++ "'"
  | inspect path => "lstat '" ++ path ++ "'"
  | rename source target => "rename '" ++ source ++ "' -> '" ++ target ++ "'"

/-- An operation that meets a fault. -/
structure FileError where
  fault : FileFault
  operation : FileOperation
  deriving DecidableEq, Repr

/-- The wording of an error. -/
def FileError.message (e : FileError) : String :=
  e.fault.message ++ ", " ++ e.operation.message

/-- What a path leads to. -/
inductive FileNode where
  | file (data : List UInt8)
  | directory
  deriving DecidableEq, Repr

/-- Files and directories. -/
structure FileTree where
  /-- The directory in which paths start that are not rooted. -/
  workingDirectory : List String
  /-- Everything but the root, by the parts of its path. -/
  nodes : List (List String × FileNode)
  deriving DecidableEq, Repr

namespace FileTree

/-- The greatest number of bytes in a part of a path. -/
def maxNameBytes : Nat := 255

/-- Whether a part of a path has too many bytes. -/
def tooLong (part : String) : Bool :=
  maxNameBytes < part.utf8ByteSize

/-- The greatest number of bytes in a path. -/
def maxPathBytes : Nat := 4095

/-- Whether a path has too many bytes. -/
def pathTooLong (path : String) : Bool :=
  maxPathBytes < path.utf8ByteSize

/-- What the parts of a path lead to; the root is always there. -/
def node? (tree : FileTree) (parts : List String) : Option FileNode :=
  if parts.isEmpty then some .directory
  else (tree.nodes.find? fun n => n.1 = parts).map Prod.snd

/-- The tree in which the parts of a path lead to something else. -/
def put (tree : FileTree) (parts : List String) (node : FileNode) : FileTree :=
  { tree with nodes := (tree.nodes.filter fun n => n.1 ≠ parts) ++ [(parts, node)] }

/-- Goes from a place in the tree through some parts, each of which must be a directory but for the
last one. -/
def walk (tree : FileTree) (place : List String) : List String → Except FileFault FileNode
  | [] =>
    match tree.node? place with
    | none => .error .missing
    | some node => .ok node
  | part :: rest =>
    match tree.node? place with
    | none => .error .missing
    | some (.file _) => .error .notDirectory
    | some .directory =>
      if part = "." then tree.walk place rest
      else if part = ".." then tree.walk place.dropLast rest
      else if tooLong part then .error .nameTooLong
      else tree.walk (place ++ [part]) rest

/-- What a path leads to. A slash at its end stands for one more step within a directory. -/
def find (tree : FileTree) (path : String) : Except FileFault FileNode :=
  let start := if isRooted path then [] else tree.workingDirectory
  let slash := if endsInSlash path then ["."] else []
  if path.isEmpty then .error .missing
  else if pathTooLong path then .error .nameTooLong
  else tree.walk start (pathParts path ++ slash)

/-- What a path from the root leads to. -/
def findPath (tree : FileTree) (path : Path) : Except FileFault FileNode :=
  if pathTooLong path.text then .error .nameTooLong else tree.walk [] path.parts

/-- Whether a path leads to anything. -/
def holds (tree : FileTree) (path : String) : Bool :=
  match tree.find path with
  | .ok _ => true
  | .error _ => false

/-- The contents of a file. -/
def read (tree : FileTree) (path : String) : Except FileError (List UInt8) :=
  match tree.find path with
  | .error fault => .error ⟨fault, .openFile path⟩
  | .ok .directory => .error ⟨.isDirectory, .read⟩
  | .ok (.file data) => .ok data

/-- The place in the tree that a path means, be there something or not. -/
def locate (tree : FileTree) (path : String) : Path :=
  Path.resolve ⟨true, tree.workingDirectory⟩ path

/-- Makes the directories that are missing on the way from a place through some parts. Those before
one that cannot be made stay. -/
def makeDirectories (tree : FileTree) (place : List String) :
    List String → FileTree × Except FileFault Unit
  | [] => (tree, .ok ())
  | part :: rest =>
    match tree.node? (place ++ [part]) with
    | some .directory => tree.makeDirectories (place ++ [part]) rest
    | some (.file _) => (tree, .error (if rest.isEmpty then .taken else .notDirectory))
    | none =>
      if tooLong part then (tree, .error .nameTooLong)
      else (tree.put (place ++ [part]) .directory).makeDirectories (place ++ [part]) rest

/-- Makes the directories that are missing on the way to a directory, and this one. -/
def makeDirectory (tree : FileTree) (path : Path) : FileTree × Except FileFault Unit :=
  if pathTooLong path.text then (tree, .error .nameTooLong) else tree.makeDirectories [] path.parts

/-- The temporary name of a file. -/
def temporary (path : Path) (token : String) : Path :=
  { path with parts := path.parent.parts ++ ["." ++ path.name ++ "." ++ token ++ ".tmp"] }

/-- Gives up writing a file. The temporary file is removed if it is there; if that cannot be found
out, this is the error. -/
def giveUp (tree : FileTree) (path temp : Path) (e : FileError) : Error :=
  match tree.findPath temp with
  | .ok _ | .error .missing => .output (.notWritten path.text e.message)
  | .error fault => .system (FileError.message ⟨fault, .inspect temp.text⟩)

/-- Writes a file, with the directories that lead to it. The token tells its temporary name from
others. -/
def store (tree : FileTree) (token : String) (path : Path) (data : List UInt8) :
    FileTree × Except Error Unit :=
  let temp := temporary path token
  match tree.makeDirectory path.parent with
  | (tree, .error fault) =>
    (tree, .error (tree.giveUp path temp ⟨fault, .makeDirectory path.parent.text⟩))
  | (tree, .ok ()) =>
    if tooLong temp.name || pathTooLong temp.text then
      (tree, .error (tree.giveUp path temp ⟨.nameTooLong, .openFile temp.text⟩))
    else
      match tree.node? path.parts with
      | some .directory =>
        (tree, .error (tree.giveUp path temp ⟨.isDirectory, .rename temp.text path.text⟩))
      | _ => (tree.put path.parts (.file data), .ok ())

/-- The files of a tree that another tree does not have, or has with other contents. -/
def newFiles (before after : FileTree) : List (List String × List UInt8) :=
  after.nodes.filterMap fun
    | (_, .directory) => none
    | (parts, .file data) =>
      if before.node? parts = some (.file data) then none else some (parts, data)

end FileTree

end Flipbook
