import Flipbook.Archive.File
import Flipbook.Error
import Flipbook.Number.Decimal
import Flipbook.Text.Blank
import Flipbook.Text.Utf16

/-!
# File names

There are two ways to name the files of an archive. The flash drive lists a file by its number, its
type, its label and its size, in columns:

```text
1      BINARY  DATA Frame 0          812
```

A sequence of frames for other tools has names like `frame_0001.tga`.

## Main definitions

* `flashName`, `readFlashName`: the listing of the flash drive.
* `sequenceName`, `readSequenceName`: the names of a sequence.
* `Naming.format`, `Naming.parse`: either of them.
-/

namespace Flipbook

/-- What the name of a file tells. -/
structure ParsedName where
  number : Binary64
  /-- The type of the tape file. -/
  type : String
  /-- The name of the tape file. -/
  label : String
  extension : String
  /-- The size, if the name has it. -/
  size : Option Binary64
  deriving DecidableEq, Repr

/-- The number that decimal digits stand for. -/
def digitsNumber (digits : List Char) : Binary64 :=
  (Decimal.mk false (digitsValue digits) 0).toBinary64

/-- The listing of a file: the number in 7 columns, the type in 8, the label in 21, a space, and the
size. -/
def flashName (number : Binary64) (type label : String) (size : Binary64) :
    Except OutputError String :=
  if !number.isInteger || number.lt 1 || size.lt 0 then .error (.flashFileNumber number size)
  else
    .ok (String.ofList (padRight16 7 number.text.toList ++ padRight16 8 type.toList ++
      padRight16 21 label.toList ++ ' ' :: size.text.toList))

/-- Splits a run of characters of a kind off the start of a text. -/
def splitRun (p : Char → Bool) (cs : List Char) : List Char × List Char :=
  (cs.takeWhile p, cs.dropWhile p)

/-- Splits a text, that ends with a size, into label and size. Between them there are blanks. -/
def splitLabel (cs : List Char) : Option (List Char × List Char) :=
  let (size, front) := splitRun Char.isDigit cs.reverse
  let (gap, label) := splitRun isBlank front
  if size.isEmpty || gap.isEmpty || label.isEmpty || label.any isLineEnd then none
  else some (label.reverse, size.reverse)

/-- Splits what follows the type into label and size. The label is empty if there is only a size,
with at least two blanks before it. -/
def splitLabelAfter (gap rest : List Char) : Option (List Char × List Char) :=
  match splitLabel rest with
  | some parts => some parts
  | none =>
    if 2 ≤ gap.length && !rest.isEmpty && rest.all Char.isDigit then some ([], rest) else none

/-- Reads a listing. The label is whatever stands between the type, in capital letters, and the
size, without the blanks around it. -/
def readFlashName (name : String) : Option ParsedName :=
  let (number, afterNumber) := splitRun Char.isDigit name.toList
  let (gap₁, afterGap) := splitRun isBlank afterNumber
  let (type, afterType) := splitRun Char.isUpper afterGap
  let (gap₂, rest) := splitRun isBlank afterType
  if number.isEmpty || gap₁.isEmpty || type.isEmpty || gap₂.isEmpty then none
  else
    (splitLabelAfter gap₂ rest).map fun (label, size) =>
      { number := digitsNumber number, type := String.ofList type, label := String.ofList label,
        extension := "", size := some (digitsNumber size) }

/-- The name of a file in a sequence: the number with at least four digits, and the extension. -/
def sequenceName (number : Binary64) (extension : String) : String :=
  let digits := number.text.toList
  "frame_" ++ String.ofList (List.replicate (4 - length16 digits) '0' ++ digits) ++ "." ++ extension

/-- The rest of a text that starts in a given way. -/
def dropStart? : List Char → List Char → Option (List Char)
  | [], cs => some cs
  | a :: as, c :: cs => if a = c then dropStart? as cs else none
  | _ :: _, [] => none

/-- Reads the name of a file in a sequence. -/
def readSequenceName (name : String) : Option ParsedName := do
  let body ← dropStart? "frame_".toList name.toList
  let (number, rest) := splitRun Char.isDigit body
  let extension ← dropStart? ".".toList rest
  if number.isEmpty || extension.isEmpty || !extension.all Char.isAlphanum then none
  else
    some { number := digitsNumber number, type := "BINARY", label := "",
           extension := String.ofList extension, size := none }

/-- The ways to name the files of an archive. -/
inductive Naming where
  | flashDrive
  | sequence
  deriving DecidableEq, Repr

/-- The name of a file with a number. -/
def Naming.format (naming : Naming) (number : Binary64) (file : FrameFile) :
    Except OutputError String :=
  match naming with
  | flashDrive => flashName number file.type file.label (.ofNat file.data.length)
  | sequence => .ok (sequenceName number file.extension)

/-- Reads the name of a file. -/
def Naming.parse (naming : Naming) (name : String) : Option ParsedName :=
  match naming with
  | flashDrive => readFlashName name
  | sequence => readSequenceName name

end Flipbook
