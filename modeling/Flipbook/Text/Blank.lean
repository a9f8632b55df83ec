/-!
# Blanks and words

The characters that separate words in scripts, plots and file names, and the splitting of a text
at them. The set is that of the Unicode spaces together with the tab, the line ends and the byte
order mark; the next-line control U+0085 and the zero-width space U+200B do not belong to it.
-/

namespace Flipbook

/-- The blanks that lie alone among the code points. -/
def loneBlanks : List Nat :=
  [0x20, 0xA0, 0x1680, 0x2028, 0x2029, 0x202F, 0x205F, 0x3000, 0xFEFF]

/-- Whether a character separates words. -/
def isBlank (c : Char) : Bool :=
  let n := c.toNat
  (0x09 ≤ n && n ≤ 0x0D) || (0x2000 ≤ n && n ≤ 0x200A) || loneBlanks.contains n

/-- Whether a character ends a line for a pattern that stays within one line. -/
def isLineEnd (c : Char) : Bool :=
  c = '\n' || c = '\r' || c.toNat = 0x2028 || c.toNat = 0x2029

/-- Drops the blanks before the first and behind the last other character. -/
def trimBlank (cs : List Char) : List Char :=
  ((cs.dropWhile isBlank).reverse.dropWhile isBlank).reverse

/-- The pieces of a text between the characters of a kind; `n` of them make `n + 1` pieces. -/
def piecesBy (isSeparator : Char → Bool) : List Char → List (List Char)
  | [] => [[]]
  | c :: cs =>
    if isSeparator c then [] :: piecesBy isSeparator cs
    else
      match piecesBy isSeparator cs with
      | [] => [[c]]
      | p :: ps => (c :: p) :: ps

/-- The maximal runs of characters that are no separators. -/
def wordsBy (isSeparator : Char → Bool) (cs : List Char) : List (List Char) :=
  (piecesBy isSeparator cs).filter fun p => !p.isEmpty

/-- The words of a text: its maximal runs of characters that are not blank. -/
def words (cs : List Char) : List (List Char) :=
  wordsBy isBlank cs

end Flipbook
