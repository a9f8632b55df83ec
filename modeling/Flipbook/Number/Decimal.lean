import Flipbook.Number.Binary64

/-!
# Decimal numerals

Numbers as they are written in scripts, plots and options: a sign, digits with at most one point
among them, and an exponent.

## Main definitions

* `Decimal.ofChars?`: reads `sign? (digits ("." digits?)? | "." digits) (e sign? digits)?`.
* `Decimal.toBinary64`: the double-precision number nearest to a numeral.
-/

namespace Flipbook

/-- A numeral: `mantissa * 10 ^ exponent` with a sign. Zero keeps its sign. -/
structure Decimal where
  /-- Whether the numeral has a minus sign. -/
  negative : Bool
  /-- The digits, read without the point. -/
  mantissa : Nat
  /-- The power of ten of the last digit. -/
  exponent : Int
  deriving DecidableEq, Repr

/-- The value of a decimal digit. -/
def digitValue (c : Char) : Nat :=
  c.toNat - '0'.toNat

/-- The value of a run of decimal digits; no digits stand for zero. -/
def digitsValue (cs : List Char) : Nat :=
  cs.foldl (fun n c => 10 * n + digitValue c) 0

/-- Splits off an optional sign; the flag tells whether it is a minus. -/
def splitSign : List Char → Bool × List Char
  | '-' :: rest => (true, rest)
  | '+' :: rest => (false, rest)
  | cs => (false, cs)

/-- The integer that a text consisting of an optional sign and digits stands for. -/
def signedInteger? (cs : List Char) : Option Int :=
  let (negative, digits) := splitSign cs
  if digits.isEmpty || !digits.all Char.isDigit then none
  else
    let n : Int := digitsValue digits
    some (if negative then -n else n)

namespace Decimal

/-- The exponent part of a numeral; an absent one stands for zero. -/
def exponentOfChars? : List Char → Option Int
  | [] => some 0
  | c :: rest => if c = 'e' ∨ c = 'E' then signedInteger? rest else none

/-- The numeral that the whole of `cs` spells, if it spells one. -/
def ofChars? (cs : List Char) : Option Decimal :=
  let (negative, body) := splitSign cs
  let whole := body.takeWhile Char.isDigit
  let (fraction, rest) :=
    match body.dropWhile Char.isDigit with
    | '.' :: tail => (tail.takeWhile Char.isDigit, tail.dropWhile Char.isDigit)
    | tail => ([], tail)
  if whole.isEmpty && fraction.isEmpty then none
  else
    (exponentOfChars? rest).map fun e =>
      { negative, mantissa := digitsValue (whole ++ fraction), exponent := e - fraction.length }

/-- The magnitude of a numeral as a double-precision number. Numerals of 310 digits and more before
the point are infinite, and those that start more than 330 places behind the point are zero, so
that no greater power of ten is ever computed. -/
def magnitude (d : Decimal) : Binary64 :=
  let places : Int := (Nat.toDigits 10 d.mantissa).length + d.exponent
  if d.mantissa = 0 ∨ places < -330 then .finite 0
  else if 310 < places then .infinite false
  else
    .round (mkRat (d.mantissa * Nat.pow 10 d.exponent.toNat : Nat)
      (Nat.pow 10 (-d.exponent).toNat))

/-- The double-precision number nearest to a numeral. -/
def toBinary64 (d : Decimal) : Binary64 :=
  if d.negative then -d.magnitude else d.magnitude

/-- The exact value of a numeral. -/
def toRat (d : Decimal) : Rat :=
  let magnitude :=
    mkRat (d.mantissa * Nat.pow 10 d.exponent.toNat : Nat) (Nat.pow 10 (-d.exponent).toNat)
  if d.negative then -magnitude else magnitude

end Decimal

end Flipbook
