import Flipbook.Command.Run
import Flipbook.Zip.Read

/-!
# The program

Reads the files that a command line can ask for from the disk, carries the command line out, prints
the messages, and writes the files that are left.

What a command line can ask for is its input, and, if that is a script, every file whose name is a
word of the script. Whatever stands in the directories of the output is looked up by name only.
This program does not start others: a video fails as if its process could not be run.
-/

namespace Flipbook.Main

/-- Reads what a path leads to. Directories above it are directories of the tree. -/
def load (tree : FileTree) (path : Path) : IO FileTree := do
  let place := (← IO.currentDir) / path.text
  if ← place.isDir then
    return (tree.makeDirectories [] path.parts).1
  else if ← place.pathExists then
    let data ← IO.FS.readBinFile place
    let above := (tree.makeDirectories [] path.parent.parts).1
    return above.put path.parts (.file data.toList)
  else
    return tree

/-- Reads what several paths lead to. -/
def loadAll (tree : FileTree) (paths : List Path) : IO FileTree :=
  paths.foldlM load tree

/-- The paths that a script may name: its words, from the directory of the script. -/
def scriptPaths (tree : FileTree) (script : String) : List Path :=
  match tree.read script with
  | .error _ => []
  | .ok data =>
    let directory := (tree.locate script).parent
    (words (decodeUtf8 data).toList).map fun word => directory.resolve (String.ofList word)

/-- Notes the names in the directory of a path. -/
def loadSiblings (tree : FileTree) (path : Path) : IO FileTree := do
  let place := (← IO.currentDir) / path.parent.text
  if ← place.isDir then
    let tree ← load tree path.parent
    (← place.readDir).foldlM (fun tree entry => do
      let parts := path.parent.parts ++ [entry.fileName]
      if ← entry.path.isDir then return tree.put parts .directory
      else if (tree.node? parts).isSome then return tree
      else return tree.put parts (.file [])) tree
  else
    load tree path.parent

/-- Reads the files that a command line can ask for. -/
def loadFor (tree : FileTree) (texts : List String) : IO FileTree := do
  match Command.CommandLine.parse texts with
  | .error _ | .ok ⟨.help, _⟩ => return tree
  | .ok ⟨.render script, options⟩ =>
    let tree ← load tree (tree.locate script)
    let tree ← loadAll tree (scriptPaths tree script)
    loadSiblings tree (tree.locate options.output)
  | .ok ⟨.rechunk archive, options⟩ =>
    let tree ← load tree (tree.locate archive)
    loadSiblings tree (tree.locate (options.stem.getD (defaultStem archive)))

/-- Prints a message. -/
def print (message : Command.Message) : IO Unit :=
  match message.channel with
  | .output => IO.println message.text
  | .warning | .error => IO.eprintln message.text

/-- Writes a file under a temporary name, and renames it then. -/
def save (token : String) (parts : List String) (data : List UInt8) : IO Unit := do
  let path : Path := ⟨true, parts⟩
  IO.FS.createDirAll path.parent.text
  let temporary := (FileTree.temporary path token).text
  IO.FS.writeBinFile temporary (ByteArray.mk data.toArray)
  IO.FS.rename temporary path.text

end Flipbook.Main

open Flipbook

/-- Carries out a command line. -/
def main (texts : List String) : IO UInt32 := do
  let home := Path.root.resolve (← IO.currentDir).toString
  let empty : FileTree := ⟨home.parts, []⟩
  let tree ← Main.loadFor (empty.makeDirectories [] home.parts).1 texts
  let token := toString (← IO.rand 0 1000000000000)
  let videoEnd : Command.VideoEnd := .fails "The program that encodes videos cannot be started"
  let report := Command.run Float { files := tree, token, videoEnd, interruptAt := none } texts
  try
    for (parts, data) in tree.newFiles report.files do
      Main.save token parts data
    report.messages.forM Main.print
    return if report.failed then 1 else 0
  catch e =>
    IO.eprintln (Command.failureMessage (.system (toString e)))
    return 1
