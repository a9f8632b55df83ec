/-!
# Lengths in UTF-16 units

File name columns and message tails are measured in UTF-16 units: a character beyond the basic
plane counts twice.
-/

namespace Flipbook

/-- The number of UTF-16 units of a character. -/
def units16 (c : Char) : Nat :=
  if c.toNat < 0x10000 then 1 else 2

/-- The length of a text in UTF-16 units. -/
def length16 : List Char → Nat
  | [] => 0
  | c :: cs => units16 c + length16 cs

/-- Extends a text with spaces to a column width; a longer text stays as it is. -/
def padRight16 (width : Nat) (cs : List Char) : List Char :=
  cs ++ List.replicate (width - length16 cs) ' '

/-- The longest start of a text that fits into so many units. -/
def takeUnits16 : Nat → List Char → List Char
  | _, [] => []
  | room, c :: cs => if units16 c ≤ room then c :: takeUnits16 (room - units16 c) cs else []

/-- The longest end of a text that fits into so many units. -/
def lastUnits16 (limit : Nat) (cs : List Char) : List Char :=
  (takeUnits16 limit cs.reverse).reverse

end Flipbook
