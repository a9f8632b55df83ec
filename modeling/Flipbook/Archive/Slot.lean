import Flipbook.Number.Binary64

/-!
# Places in an archive set

A sequence of files fills archives of one capacity, one after the other. The place of a file follows
from its position in the sequence. Positions and capacities are numbers of double precision, as are
the places.
-/

namespace Flipbook

/-- A place in an archive set. -/
structure ArchiveSlot where
  /-- The archive, counted from 0. -/
  archiveIndex : Binary64
  /-- The place in the archive, counted from 1. -/
  number : Binary64
  deriving DecidableEq, Repr

/-- The place of the file at a position of the sequence. -/
def ArchiveSlot.ofPosition (position capacity : Binary64) : ArchiveSlot where
  archiveIndex := (position.div capacity).floor
  number := position.rem capacity + 1

end Flipbook
