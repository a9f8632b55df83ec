/-!
# Entries of a zip file

A zip file is a list of named contents. Adding a name again replaces its content and keeps its
place.

## Main definitions

* `Entry`: a name with its content.
* `Listed`: an entry as a zip file lists it.
* `Codec`: something that makes zip files and reads them.
-/

namespace Flipbook.Zip

/-- A name with its content. -/
structure Entry where
  /-- The name, with slashes between its parts. -/
  name : String
  data : List UInt8
  deriving DecidableEq, Repr

/-- An entry as it is listed. The content is expanded only when it is asked for. -/
structure Listed where
  name : String
  isDirectory : Bool
  /-- The content, or why it cannot be had. -/
  content : Except String (List UInt8)

/-- An entry as it is listed when its content is there. -/
def Listed.ofEntry (e : Entry) : Listed where
  name := e.name
  isDirectory := false
  content := .ok e.data

/-- Something that makes zip files and reads them. Archives do not depend on how it does so. -/
class Codec where
  /-- The zip file of some entries. -/
  write : List Entry → List UInt8
  /-- The entries of a zip file that are no directories, or why it cannot be read. -/
  read : List UInt8 → Except String (List Listed)

/-- Adds an entry, or replaces the content of the entry with its name. -/
def insert {β : Type} (nameOf : β → String) (entries : List β) (e : β) : List β :=
  if entries.any fun x => nameOf x = nameOf e then
    entries.map fun x => if nameOf x = nameOf e then e else x
  else entries ++ [e]

/-- The entries that remain when they are added one by one. -/
def collect (entries : List Entry) : List Entry :=
  entries.foldl (insert Entry.name) []

end Flipbook.Zip
