import Flipbook.Number.Binary64

/-!
# The letters of an archive set

The archives of a set are told apart by letters behind the common stem of their names: `a` to `z`,
then `aa`, `ab`, and so on through all words of two letters, of three, and so on.

## Main definitions

* `suffixChars`: the letters of the archive with an index.
* `archiveSuffix`: that for an index which is any number of double precision.
* `archiveName`: the file name of an archive.
-/

namespace Flipbook

/-- A letter of the alphabet, by its place from 0 to 25. -/
def letter (i : Nat) : Char :=
  Char.ofNat (97 + i)

/-- Puts the letters that count `n` archives before those that are already there. -/
def suffixBefore : Nat → List Char → List Char
  | 0, acc => acc
  | n + 1, acc => suffixBefore (n / 26) (letter (n % 26) :: acc)
termination_by n => n
decreasing_by omega

/-- The letters of the archive with an index. -/
def suffixChars (index : Nat) : List Char :=
  suffixBefore (index + 1) []

/-- The letter in the last place of the count `n`, which need not be a whole number; fractions do not
count. -/
def roundedLetter (n : Binary64) : Char :=
  match (97 + (n - 1).rem 26 : Binary64) with
  | .finite code => Char.ofNat code.floor.toNat
  | _ => Char.ofNat 0

/-- Puts the letters that count `n` archives before those that are already there, at most `fuel` of
them. Each step is rounded. Counting ends by itself unless `n` is infinite. -/
def roundedSuffixBefore : Nat → Binary64 → List Char → List Char
  | 0, _, acc => acc
  | fuel + 1, n, acc =>
    if 0 < n then roundedSuffixBefore fuel ((n - 1).div 26).floor (roundedLetter n :: acc) else acc

/-- No finite number has more letters. -/
def maxSuffixLength : Nat := 300

/-- The letters of an index. Those of a natural number below `2 ^ 53` are exact, and beyond it
neighbours begin to share their letters. A negative number has none. There is no end of the letters
of infinity: counting them gives no answer, and the text here stands for none. -/
def archiveSuffix (index : Binary64) : String :=
  String.ofList <|
    match index.toNat?.filter fun n => n < Binary64.exactBound with
    | some n => suffixChars n
    | none => roundedSuffixBefore maxSuffixLength (index + 1) []

/-- The file name of an archive of a set, given its letters. -/
def archiveName (stem suffix : String) : String :=
  stem ++ suffix ++ ".zip"

end Flipbook
