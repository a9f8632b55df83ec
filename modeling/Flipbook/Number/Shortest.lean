import Flipbook.Number.Binary64

/-!
# Shortest decimal digits

The digits that a double-precision number is written with: the fewest that still read back as the
same number and, of those, the nearest to it. Of two that are equally near, the even one is taken.

A positive finite number is `units * 2 ^ place`. The reals that round to it form an interval,
which includes its ends exactly if `units` is even. For each count of digits the two decimals next
to the number are tried, and the first count with a decimal inside the interval wins.
-/

namespace Flipbook

/-- Decimal digits with the position of the point: the value is `0.d₁d₂d₃… * 10 ^ point`. -/
structure DecimalDigits where
  /-- The digits, the first of which is not zero. -/
  digits : List Char
  /-- The number of digits before the point. -/
  point : Int
  deriving DecidableEq, Repr

namespace Shortest

/-- The interval of the reals that round to one number, in quarters of its last place, as
`quarters * 2 ^ place`. -/
structure Interval where
  low : Nat
  /-- The number itself. -/
  value : Nat
  /-- The upper end. -/
  high : Nat
  /-- The exponent of a quarter of the last place. -/
  place : Int
  /-- Whether the ends round to the number, too. -/
  closed : Bool

/-- The interval of a positive finite number. Below a power of two the numbers lie twice as close,
unless it is the least normal one. -/
def Interval.ofRat (q : Rat) : Interval :=
  let place := Binary64.lastPlace q.num.natAbs q.den
  let units := q.num.natAbs * Nat.pow 2 (-place).toNat / (q.den * Nat.pow 2 place.toNat)
  { low := if units = Nat.pow 2 52 ∧ -1074 < place then 4 * units - 1 else 4 * units - 2
    value := 4 * units
    high := 4 * units + 2
    place := place - 2
    closed := units % 2 == 0 }

/-- A factor and a divisor that bring decimals of the unit `10 ^ unit` and the ends of an interval
to one denominator: `s * 10 ^ unit` compares with `m * 2 ^ place` as `s * scale.1` with
`m * scale.2`. -/
def scales (place unit : Int) : Nat × Nat :=
  (Nat.pow 10 unit.toNat * Nat.pow 2 (-place).toNat,
    Nat.pow 2 place.toNat * Nat.pow 10 (-unit).toNat)

/-- Whether the decimal `s * 10 ^ unit` rounds to the number of the interval. -/
def Interval.mem (i : Interval) (unit : Int) (s : Nat) : Bool :=
  let (a, b) := scales i.place unit
  if i.closed then decide (i.low * b ≤ s * a ∧ s * a ≤ i.high * b)
  else decide (i.low * b < s * a ∧ s * a < i.high * b)

/-- The decimal of the unit `10 ^ unit` nearest to the number of the interval, of the two next to
it, if one of them rounds to the number. If they are equally near, it is the even one. -/
def Interval.nearest? (i : Interval) (unit : Int) : Option Nat :=
  let (a, b) := scales i.place unit
  let low := i.value * b / a
  let high := low + 1
  let below := i.value * b - low * a
  let above := high * a - i.value * b
  match i.mem unit low, i.mem unit high with
  | true, true => some (if above < below ∨ (above = below ∧ low % 2 = 1) then high else low)
  | true, false => some low
  | false, true => some high
  | false, false => none

/-- The least `e` such that the positive rational `q` is below `10 ^ e`. -/
def decimalPoint (q : Rat) : Int :=
  let guess := (Binary64.log2Div q.num.natAbs q.den * 30103) / 100000
  let below (e : Int) : Bool :=
    decide (q.num.natAbs * Nat.pow 10 (-e).toNat < q.den * Nat.pow 10 e.toNat)
  if below guess then guess
  else if below (guess + 1) then guess + 1
  else guess + 2

/-- Tries the counts of digits from `count` on, at most `fuel` of them. -/
def search (i : Interval) (point : Int) : Nat → Nat → Nat × Int
  | 0, _ => (i.value, i.place)
  | fuel + 1, count =>
    let unit := point - count
    match i.nearest? unit with
    | some s => (s, unit)
    | none => search i point fuel (count + 1)

/-- The shortest digits of a positive finite number; 17 of them always suffice. -/
def ofRat (q : Rat) : DecimalDigits :=
  let (s, unit) := search (Interval.ofRat q) (decimalPoint q) 17 1
  let written := Nat.toDigits 10 s
  { digits := (written.reverse.dropWhile (· == '0')).reverse
    point := written.length + unit }

end Shortest

end Flipbook
