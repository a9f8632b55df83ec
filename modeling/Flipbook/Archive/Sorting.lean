import Flipbook.Archive.File

/-!
# Files in the order of their numbers

The files of a sequence may come in any order, and are sorted by their numbers. Files with the same
number keep their order. A number that is none cannot be compared with others; then there may be no
order, and the files are arranged by bisection as far as comparisons go.

## Main definitions

* `bisectionSort`: sorts with any comparison, be it an order or not.
* `sortByNumber`: the files of a sequence, sorted.
-/

namespace Flipbook

section Bisection

variable {β : Type} (before : β → β → Bool)

/-- Splits off the longest start of a list in which all neighbours are related. -/
def splitChain (related : β → β → Bool) : List β → List β × List β
  | a :: b :: rest =>
    if related a b then
      let (chain, others) := splitChain related (b :: rest)
      (a :: chain, others)
    else ([a], b :: rest)
  | xs => (xs, [])

/-- The longest start of a list that is sorted, or becomes so when it is reversed, and the rest. -/
def sortedStart (xs : List β) : List β × List β :=
  match xs with
  | a :: b :: _ =>
    if before b a then
      let (chain, rest) := splitChain (fun x y => before y x) xs
      (chain.reverse, rest)
    else splitChain (fun x y => !before y x) xs
  | _ => (xs, [])

/-- The place of an item among sorted ones, looked for between two places. It is behind those that
the item is not before. -/
def bisect (item : β) (sorted : Array β) (left right : Nat) : Nat :=
  if left < right then
    let middle := left + (right - left) / 2
    if (sorted[middle]?).any (before item) then bisect item sorted left middle
    else bisect item sorted (middle + 1) right
  else left
termination_by right - left
decreasing_by all_goals omega

/-- Inserts an item among sorted ones. -/
def insertSorted (sorted : List β) (item : β) : List β :=
  let place := bisect before item sorted.toArray 0 sorted.length
  sorted.take place ++ item :: sorted.drop place

/-- Sorts a list: its sorted start stays, and the other items are inserted one after the other. -/
def bisectionSort (xs : List β) : List β :=
  let (start, rest) := sortedStart before xs
  rest.foldl (insertSorted before) start

end Bisection

/-- The files in the order of their numbers; files with the same number keep their order. -/
def sortByNumber (files : List SequenceFile) : List SequenceFile :=
  if files.any fun f => f.number = .nan then
    bisectionSort (fun a b => a.number.lt b.number) files
  else files.mergeSort fun a b => !b.number.lt a.number

end Flipbook
