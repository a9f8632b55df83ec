/-!
# Double-precision numbers

The numbers of the `binary64` format as exact values: a finite number is the rational that it
stands for. Sums are rounded to the nearest number of the format, a tie going to the even
neighbour. File numbers, capacities and delays are numbers of this kind, so that they keep their
meaning beyond `2 ^ 53`, where the format has no longer room for every integer.

## Main definitions

* `Binary64.round`: the number of the format nearest to a rational.
* `Binary64.add`, `Binary64.sub`, `Binary64.div`, `Binary64.rem`: arithmetic.
* `Binary64.lt`, `Binary64.same`: order and equality.
* `Binary64.ofFloat`, `Binary64.toFloat`: exchange with the machine's numbers.
-/

namespace Flipbook

/-- A number of the `binary64` format. The two zeros are one value: nothing that is computed with
these numbers tells them apart. -/
inductive Binary64 where
  /-- A finite number, as the rational that it stands for. -/
  | finite (value : Rat)
  /-- One of the two infinities. -/
  | infinite (negative : Bool)
  /-- The result of an operation without a value. -/
  | nan
  deriving DecidableEq, Repr

/-- The quotient of a division that goes toward zero, on exact numbers. -/
def truncDiv (a b : Rat) : Int :=
  let q := a / b
  if q < 0 then -(-q).floor else q.floor

namespace Binary64

/-- The integers up to this magnitude are numbers of the format. -/
def exactBound : Nat := Nat.pow 2 53

/-- The quotient of two natural numbers, rounded to the nearest integer; a tie goes to the even
one. -/
def roundDiv (num den : Nat) : Nat :=
  let low := num / den
  let rest := 2 * (num % den)
  if den < rest ∨ (rest = den ∧ low % 2 = 1) then low + 1 else low

/-- The greatest `e` with `2 ^ e ≤ num / den`, for positive numbers. -/
def log2Div (num den : Nat) : Int :=
  let e : Int := (num.log2 : Int) - (den.log2 : Int)
  if num * Nat.pow 2 (-e).toNat < den * Nat.pow 2 e.toNat then e - 1 else e

/-- The exponent of the last place of the numbers of the format around `num / den`. -/
def lastPlace (num den : Nat) : Int :=
  max (log2Div num den - 52) (-1074)

/-- The magnitude `num / den`, rounded to a whole number of units in its last place. -/
def roundMagnitude (num den : Nat) : Rat :=
  let place := lastPlace num den
  let units := roundDiv (num * Nat.pow 2 (-place).toNat) (den * Nat.pow 2 place.toNat)
  mkRat (units * Nat.pow 2 place.toNat : Nat) (Nat.pow 2 (-place).toNat)

/-- The number of the format nearest to `q`. An integer of at most 53 bits is its own nearest
number, and what rounds to `2 ^ 1024` or more is infinite. -/
def round (q : Rat) : Binary64 :=
  if q.den = 1 ∧ q.num.natAbs ≤ exactBound then
    finite q
  else
    let magnitude := roundMagnitude q.num.natAbs q.den
    if (Nat.pow 2 1024 : Nat) ≤ magnitude then infinite (decide (q.num < 0))
    else finite (if q.num < 0 then -magnitude else magnitude)

/-- The number of the format nearest to an integer. -/
def ofInt (n : Int) : Binary64 :=
  round n

/-- The number of the format nearest to a natural number. -/
def ofNat (n : Nat) : Binary64 :=
  ofInt n

instance (n : Nat) : OfNat Binary64 n :=
  ⟨ofNat n⟩

/-- The number with the opposite sign. -/
def neg : Binary64 → Binary64
  | finite a => finite (-a)
  | infinite s => infinite !s
  | nan => nan

/-- The rounded sum. Infinities of opposite sign have none. -/
def add : Binary64 → Binary64 → Binary64
  | finite a, finite b => round (a + b)
  | finite _, infinite s => infinite s
  | infinite s, finite _ => infinite s
  | infinite s, infinite t => if s = t then infinite s else nan
  | _, _ => nan

/-- The rounded difference. -/
def sub (a b : Binary64) : Binary64 :=
  a.add b.neg

/-- The rounded quotient. A quotient by zero is infinite, or there is none if the dividend is zero,
too. -/
def div : Binary64 → Binary64 → Binary64
  | finite a, finite b =>
    if b ≠ 0 then round (a / b) else if a = 0 then nan else infinite (decide (a < 0))
  | finite _, infinite _ => finite 0
  | infinite s, finite b => infinite (s != decide (b < 0))
  | _, _ => nan

/-- The remainder of a division that goes toward zero; it needs no rounding. There is none for an
infinite dividend or a zero divisor, and an infinite divisor leaves the dividend as it is. -/
def rem : Binary64 → Binary64 → Binary64
  | finite a, finite b => if b = 0 then nan else finite (a - truncDiv a b * b)
  | finite a, infinite _ => finite a
  | _, _ => nan

/-- The greatest integer that does not exceed a finite number. -/
def floor : Binary64 → Binary64
  | finite a => finite a.floor
  | a => a

/-- The order of the numbers; `nan` is in no relation to any number. -/
def lt : Binary64 → Binary64 → Bool
  | finite a, finite b => decide (a < b)
  | finite _, infinite s => !s
  | infinite s, finite _ => s
  | infinite s, infinite t => s && !t
  | _, _ => false

/-- Whether two numbers are the same number; `nan` differs from itself. -/
def same : Binary64 → Binary64 → Bool
  | nan, _ => false
  | a, b => decide (a = b)

/-- Whether the first number is at most the second. -/
def le (a b : Binary64) : Bool :=
  a.lt b || a.same b

instance : Neg Binary64 := ⟨neg⟩
instance : Add Binary64 := ⟨add⟩
instance : Sub Binary64 := ⟨sub⟩
instance : LT Binary64 := ⟨fun a b => a.lt b = true⟩
instance : LE Binary64 := ⟨fun a b => a.le b = true⟩
instance : DecidableLT Binary64 := fun a b => inferInstanceAs (Decidable (a.lt b = true))
instance : DecidableLE Binary64 := fun a b => inferInstanceAs (Decidable (a.le b = true))

/-- Whether the number is neither infinite nor `nan`. -/
def isFinite : Binary64 → Bool
  | finite _ => true
  | _ => false

/-- The integer that a number is, if it is one. -/
def toInt? : Binary64 → Option Int
  | finite q => if q.den = 1 then some q.num else none
  | _ => none

/-- Whether the number is an integer. -/
def isInteger (a : Binary64) : Bool :=
  a.toInt?.isSome

/-- The natural number that a number is, if it is one. -/
def toNat? (a : Binary64) : Option Nat :=
  a.toInt?.bind fun n => if 0 ≤ n then some n.toNat else none

/-- The number that a machine number stands for, read from its bits. -/
def ofFloat (x : Float) : Binary64 :=
  let bits := x.toBits.toNat
  let negative := decide (Nat.pow 2 63 ≤ bits)
  let biased := bits / Nat.pow 2 52 % Nat.pow 2 11
  let fraction := bits % Nat.pow 2 52
  if biased = 2047 then
    if fraction = 0 then infinite negative else nan
  else
    let units := if biased = 0 then fraction else Nat.pow 2 52 + fraction
    let place : Int := (max biased 1 : Nat) - 1075
    let magnitude := mkRat (units * Nat.pow 2 place.toNat : Nat) (Nat.pow 2 (-place).toNat)
    finite (if negative then -magnitude else magnitude)

/-- The bits of a positive finite number. -/
def magnitudeBits (q : Rat) : Nat :=
  let place := lastPlace q.num.natAbs q.den
  let units := q.num.natAbs * Nat.pow 2 (-place).toNat / (q.den * Nat.pow 2 place.toNat)
  if units < Nat.pow 2 52 then units else (place + 1075).toNat * Nat.pow 2 52 + (units - Nat.pow 2 52)

/-- The machine number that stands for a number. -/
def toFloat : Binary64 → Float
  | finite q =>
    if q.num = 0 then 0
    else
      let magnitude := Float.ofBits (magnitudeBits q).toUInt64
      if q.num < 0 then -magnitude else magnitude
  | infinite negative => Float.ofBits (if negative then 0xfff0000000000000 else 0x7ff0000000000000)
  | nan => Float.ofBits 0x7ff8000000000000

end Binary64

end Flipbook
