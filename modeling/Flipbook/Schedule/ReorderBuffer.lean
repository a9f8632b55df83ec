/-!
# Putting results in order

A reorder buffer holds results that arrive ahead of their turn, until all earlier ones are there.
Indexes are of any type in which one can count on from an index by adding one.

## Main definitions

* `ReorderBuffer.put`: a result arrives.
* `ReorderBuffer.takeReady`: the run of results whose turn has come.
-/

namespace Flipbook

/-- Results by index. A result may be the fact that there is none. -/
structure ReorderBuffer (ι β : Type) where
  /-- The index whose turn it is. -/
  next : ι
  /-- The results that arrived ahead of their turn. -/
  pending : List (ι × Option β)
  deriving DecidableEq, Repr

namespace ReorderBuffer

variable {ι β : Type}

/-- A buffer that begins with an index. -/
def start (index : ι) : ReorderBuffer ι β :=
  ⟨index, []⟩

/-- The number of results that wait. -/
def size (buffer : ReorderBuffer ι β) : Nat :=
  buffer.pending.length

section

variable [DecidableEq ι]

/-- Whether the result of an index waits. -/
def has (buffer : ReorderBuffer ι β) (index : ι) : Bool :=
  buffer.pending.any fun e => e.1 = index

/-- Adds a result, unless one has arrived for its index before. -/
def put [LT ι] [DecidableLT ι] (buffer : ReorderBuffer ι β) (index : ι) (value : Option β) :
    Option (ReorderBuffer ι β) :=
  if index < buffer.next ∨ buffer.has index then none
  else some { buffer with pending := buffer.pending ++ [(index, value)] }

/-- Removes the result of an index. -/
def remove (buffer : ReorderBuffer ι β) (index : ι) : List (ι × Option β) :=
  buffer.pending.filter fun e => e.1 ≠ index

variable [Add ι] [OfNat ι 1]

/-- Takes results in their turn, at most `fuel` of them. Those that are none are passed over. -/
def takeUpTo : Nat → ReorderBuffer ι β → List (ι × β) × ReorderBuffer ι β
  | 0, buffer => ([], buffer)
  | fuel + 1, buffer =>
    match buffer.pending.find? fun e => e.1 = buffer.next with
    | none => ([], buffer)
    | some (index, value) =>
      let (ready, rest) := takeUpTo fuel ⟨buffer.next + 1, buffer.remove index⟩
      ((value.map fun v => (index, v)).toList ++ ready, rest)

/-- Takes the run of results that begins with the one whose turn it is. -/
def takeReady (buffer : ReorderBuffer ι β) : List (ι × β) × ReorderBuffer ι β :=
  takeUpTo buffer.size buffer

end

end ReorderBuffer

end Flipbook
