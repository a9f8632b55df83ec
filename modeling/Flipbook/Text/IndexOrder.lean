import Flipbook.Number.Decimal

/-!
# Names that are indexes

Where named things are listed, names that are plain numbers come first, by size; all other ones
follow in the order in which they were added.

## Main definitions

* `indexName?`: the number that a name is the plain form of.
* `indexesFirst`: named things in the order in which they are listed.
-/

namespace Flipbook

/-- The names of numbers from here on are names like others. -/
def indexBound : Nat := Nat.pow 2 32 - 1

/-- The number that a name is the plain form of, if it is small enough to be an index. -/
def indexName? (name : String) : Option Nat :=
  let cs := name.toList
  if cs.isEmpty || !cs.all Char.isDigit || (cs.head? = some '0' && cs.length ≠ 1) then none
  else
    let n := digitsValue cs
    if n < indexBound then some n else none

/-- Named things in the order in which they are listed. -/
def indexesFirst {β : Type} (nameOf : β → String) (xs : List β) : List β :=
  let numbered := xs.filterMap fun x => (indexName? (nameOf x)).map fun n => (n, x)
  ((numbered.mergeSort fun a b => decide (a.1 ≤ b.1)).map Prod.snd) ++
    xs.filter fun x => (indexName? (nameOf x)).isNone

end Flipbook
