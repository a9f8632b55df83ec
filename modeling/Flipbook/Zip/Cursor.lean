/-!
# Fields of a zip file

A cursor stands at a place in the bytes of a zip file. Places are counted from the first file, which
other bytes may precede. A field is what is read at the cursor, which then moves behind it.

## Main definitions

* `Cursor`, `Field`: a place, and what is read there.
* `Field.seek`, `Field.bytes`, `Field.unsigned`, `Field.signed`: moving and reading.
* `lastMark`: where a mark occurs last.
-/

namespace Flipbook.Zip

/-- A place in a zip file. -/
structure Cursor where
  /-- All bytes. -/
  content : Array UInt8
  /-- The number of bytes before the first file. -/
  zero : Nat
  /-- The place, counted from the first file. -/
  index : Int

/-- What is read at a cursor, or why it cannot be read. -/
abbrev Field (β : Type) : Type := StateT Cursor (Except String) β

/-- The number that some bytes stand for, the lowest first. -/
def fromLittleEndian (bytes : List UInt8) : Nat :=
  bytes.foldr (fun b n => b.toNat + 256 * n) 0

/-- The number with a sign that the 32 lowest bits of a number stand for. -/
def signed32 (n : Nat) : Int :=
  let low : Nat := n % Nat.pow 2 32
  if low < Nat.pow 2 31 then low else (low : Int) - Nat.pow 2 32

namespace Field

/-- Goes to a place, which must not be beyond the end. -/
def seek (index : Int) : Field Unit := do
  let c ← get
  if index < 0 ∨ (c.content.size : Int) < c.zero + index then throw "End of data reached"
  else set { c with index }

/-- Goes on by so many bytes. -/
def skip (count : Int) : Field Unit := do
  let c ← get
  seek (c.index + count)

/-- So many bytes. A negative number of them leads back, and yields none. -/
def bytes (count : Int) : Field (List UInt8) := do
  let c ← get
  skip count
  let start := c.zero + c.index.toNat
  return (c.content.extract start (start + count.toNat)).toList

/-- A number of so many bytes. -/
def unsigned (count : Nat) : Field Nat := do
  return fromLittleEndian (← bytes count)

/-- A number of so many bytes with a sign. Of longer numbers only the 32 lowest bits count. -/
def signed (count : Nat) : Field Int := do
  return signed32 (← unsigned count)

/-- Whether there is a mark at a place. The cursor stays where it is. -/
def isMarked (index : Int) (mark : List UInt8) : Field Bool := do
  let c ← get
  seek index
  let found ← bytes mark.length
  set c
  return found = mark

end Field

/-- Where a mark occurs last in some bytes, at `start` or before it. -/
def lastMark (mark : List UInt8) (content : Array UInt8) (start : Nat) : Option Nat :=
  if mark.zipIdx.all fun (b, i) => content[start + i]? = some b then some start
  else
    match start with
    | 0 => none
    | n + 1 => lastMark mark content n

end Flipbook.Zip
