import Flipbook.Text.Blank

/-!
# Paths

A path leads to a file through directories, whose names stand between slashes. A path that begins
with a slash starts at the root, any other one where it is used. The part `.` stays where it is, and
`..` goes back to the directory above.

## Main definitions

* `pathParts`, `baseName`, `nameStem`: the parts of a path, the last of them, and a name without its
  extension.
* `Path`: a path in normal form.
* `Path.resolve`: follows a path from another one.
-/

namespace Flipbook

/-- The parts of a path. Slashes without anything between them count as one. -/
def pathParts (path : String) : List String :=
  (wordsBy (· = '/') path.toList).map String.ofList

/-- Whether a path starts at the root. -/
def isRooted (path : String) : Bool :=
  path.toList.head? = some '/'

/-- Whether a path ends with a slash, so that it can only lead to a directory. -/
def endsInSlash (path : String) : Bool :=
  path.toList.getLast? = some '/'

/-- The last part of a path; it is empty if the path has no parts. -/
def baseName (path : String) : String :=
  (pathParts path).getLast?.getD ""

/-- A name without its extension, which begins at the last dot. A dot at the start of a name does
not begin an extension, and neither does that of `..`. -/
def nameStem (name : String) : String :=
  match name.toList.reverse.dropWhile (· ≠ '.') with
  | [] => name
  | _ :: front => if front.isEmpty || name = ".." then name else String.ofList front.reverse

/-- A path in normal form: without `.`, and with `..` only at the start of a path that is not
rooted. -/
structure Path where
  /-- Whether the path starts at the root. -/
  rooted : Bool
  parts : List String
  deriving DecidableEq, Repr

namespace Path

/-- The root. -/
def root : Path :=
  ⟨true, []⟩

/-- The place where a path is used. -/
def here : Path :=
  ⟨false, []⟩

/-- The directory above. There is none above the root. -/
def parent (path : Path) : Path :=
  match path.parts.getLast? with
  | none => if path.rooted then path else { path with parts := [".."] }
  | some last =>
    if last = ".." then { path with parts := path.parts ++ [".."] }
    else { path with parts := path.parts.dropLast }

/-- Goes on to a part. -/
def enter (path : Path) (part : String) : Path :=
  if part = "." then path
  else if part = ".." then path.parent
  else { path with parts := path.parts ++ [part] }

/-- Goes on through several parts. -/
def follow (path : Path) (parts : List String) : Path :=
  parts.foldl enter path

/-- Follows a path, unless it starts at the root. -/
def resolve (base : Path) (path : String) : Path :=
  (if isRooted path then root else base).follow (pathParts path)

/-- The last part. -/
def name (path : Path) : String :=
  path.parts.getLast?.getD ""

/-- A path as it is written. -/
def text (path : Path) : String :=
  let body := String.intercalate "/" path.parts
  if path.rooted then "/" ++ body else if path.parts.isEmpty then "." else body

end Path

/-- What the names of new archives start with if nothing else is said: the path of the old archive,
without its extension. -/
def defaultStem (path : String) : String :=
  let parts := pathParts path
  let stem := parts.getLast?.toList.map nameStem
  ((if isRooted path then Path.root else Path.here).follow (parts.dropLast ++ stem)).text

end Flipbook
