import Flipbook.Number.Decimal
import Flipbook.Text.Blank

/-!
# Numerals in any notation

Plots and command lines write a number as a decimal, in base 16, 8 or 2 behind `0x`, `0o` or `0b`,
as `Infinity`, or as nothing at all, which is zero. Blanks around it do not count.
-/

namespace Flipbook

/-- A number as it is written, if it is a number. -/
inductive Numeral where
  /-- Digits in some base. -/
  | decimal (value : Decimal)
  /-- The word for an infinite number. -/
  | infinity (negative : Bool)
  deriving DecidableEq, Repr

namespace Numeral

/-- The value of a digit of a base up to 16. -/
def baseDigit? (base : Nat) (c : Char) : Option Nat :=
  let value :=
    if c.isDigit then c.toNat - '0'.toNat
    else if 'a' ≤ c ∧ c ≤ 'f' then c.toNat - 'a'.toNat + 10
    else if 'A' ≤ c ∧ c ≤ 'F' then c.toNat - 'A'.toNat + 10
    else base
  if value < base then some value else none

/-- The number that digits of a base, at least one, stand for. -/
def ofBase? (base : Nat) (digits : List Char) : Option Numeral :=
  if digits.isEmpty then none
  else
    (digits.mapM (baseDigit? base)).map fun values =>
      decimal ⟨false, values.foldl (fun n d => base * n + d) 0, 0⟩

/-- The base that a second character names, behind a zero. -/
def base? (c : Char) : Option Nat :=
  match c with
  | 'x' | 'X' => some 16
  | 'o' | 'O' => some 8
  | 'b' | 'B' => some 2
  | _ => none

/-- Reads a decimal, or the word for infinity. -/
def ofDecimalChars? (cs : List Char) : Option Numeral :=
  match Decimal.ofChars? cs with
  | some d => some (decimal d)
  | none =>
    let (negative, body) := splitSign cs
    if body = "Infinity".toList then some (infinity negative) else none

/-- Reads a number; a blank text is zero. -/
def ofChars? (cs : List Char) : Option Numeral :=
  match trimBlank cs with
  | [] => some (decimal ⟨false, 0, 0⟩)
  | '0' :: c :: rest =>
    match base? c with
    | some base => ofBase? base rest
    | none => ofDecimalChars? ('0' :: c :: rest)
  | body => ofDecimalChars? body

/-- The double-precision number nearest to a numeral. -/
def toBinary64 : Numeral → Binary64
  | decimal d => d.toBinary64
  | infinity negative => .infinite negative

end Numeral

/-- The number that a text stands for; `nan` if it stands for none. -/
def Binary64.ofText (text : String) : Binary64 :=
  ((Numeral.ofChars? text.toList).map Numeral.toBinary64).getD .nan

end Flipbook
