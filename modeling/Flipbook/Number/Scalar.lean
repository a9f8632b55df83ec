import Flipbook.Number.Decimal

/-!
# Scalars

Coordinates, angles, scale factors and frame rates are scalars. A drawing is computed in machine
numbers; every definition that only adds, multiplies, compares and rounds is stated over any type
with these operations, so that it can be read in exact arithmetic, too.

## Main definitions

* `Scalar`: the operations that geometry, scripts and scenes need.
* `Trig`: the functions of angles, which rotations and arcs need in addition.
* The instances `Scalar Float`, `Trig Float` and `Scalar Rat`.
-/

namespace Flipbook

/-- Numbers that drawings are computed with. Comparisons may fail for all pairs of some operands,
as they do for a machine number without a value. -/
class Scalar (α : Type) extends Add α, Sub α, Mul α, Div α, Neg α, LT α, LE α, BEq α where
  decidableLT : DecidableLT α
  /-- The weak order is decidable. -/
  decidableLE : DecidableLE α
  /-- The scalar nearest to an integer. -/
  ofInt : Int → α
  /-- The scalar nearest to a numeral. -/
  ofDecimal : Decimal → α
  /-- The scalar nearest to a double-precision number. -/
  ofBinary64 : Binary64 → α
  /-- Whether the scalar is a number at all, and not an infinite one. -/
  isFinite : α → Bool
  /-- The integer nearest to a finite scalar; a half goes up. Of a scalar that is not finite there
  is none, and it must not be asked for: `Scalar.rounded` keeps such scalars. -/
  round : α → Int
  /-- The least integer that a finite scalar does not exceed. -/
  ceil : α → Int
  /-- The remainder of a division that goes toward zero; it has the sign of the dividend. -/
  rem : α → α → α
  /-- The double-precision number nearest to a scalar, as which it is written out. -/
  toBinary64 : α → Binary64

namespace Scalar

instance {α : Type} [Scalar α] : DecidableLT α := decidableLT
instance {α : Type} [Scalar α] : DecidableLE α := decidableLE

variable {α : Type} [Scalar α]

/-- The scalar nearest to a natural number. -/
def ofNat (n : Nat) : α :=
  ofInt n

/-- One half. -/
def half : α :=
  ofInt 1 / ofInt 2

/-- The magnitude of a scalar. -/
def abs (v : α) : α :=
  if v < ofInt 0 then -v else v

/-- The greater of two scalars. Operands that do not compare give their sum, which is no number
either. -/
def maximum (a b : α) : α :=
  if a < b then b else if b ≤ a then a else a + b

/-- The lesser of two scalars, with the same convention. -/
def minimum (a b : α) : α :=
  if b < a then b else if a ≤ b then a else a + b

/-- The scalar of the interval from `low` to `high` nearest to `v`. -/
def clamp (v low high : α) : α :=
  minimum high (maximum low v)

/-- The point a fraction `t` of the way from `a` to `b`. -/
def lerp (a b t : α) : α :=
  a + (b - a) * t

/-- The whole number nearest to a scalar, as a scalar; a half goes up. A scalar that is no number, or
an infinite one, stays what it is. -/
def rounded (v : α) : α :=
  if isFinite v then ofInt (round v) else v

/-- Whether a scalar is zero, of either sign. -/
def isZero (v : α) : Bool :=
  v == ofInt 0

/-- Whether a scalar is one. -/
def isOne (v : α) : Bool :=
  v == ofInt 1

end Scalar

/-- Scalars with a square root and the functions of angles, which are in radians. -/
class Trig (α : Type) extends Scalar α where
  /-- The square root. -/
  sqrt : α → α
  sin : α → α
  cos : α → α
  /-- The angle of the point with the given ordinate and abscissa. -/
  atan2 : α → α → α
  /-- Half a turn. -/
  pi : α

/-- The radians of an angle in degrees. -/
def radians {α : Type} [Trig α] (degrees : α) : α :=
  degrees * Trig.pi / Scalar.ofInt 180

namespace MachineNumber

/-- The exact value of a machine number, zero if it has none. -/
def exact (x : Float) : Rat :=
  match Binary64.ofFloat x with
  | .finite q => q
  | _ => 0

/-- The machine number nearest to an integer. -/
def ofInt (n : Int) : Float :=
  if n.natAbs < Binary64.exactBound then Float.ofInt n else (Binary64.ofInt n).toFloat

/-- The remainder of a division that goes toward zero. A zero has the sign of the dividend. -/
def rem (x y : Float) : Float :=
  let r := (Binary64.ofFloat x).rem (Binary64.ofFloat y)
  if r = .finite 0 then x * 0 else r.toFloat

end MachineNumber

instance : Scalar Float where
  decidableLT := inferInstance
  decidableLE := inferInstance
  ofInt := MachineNumber.ofInt
  ofDecimal d := if d.negative then -d.magnitude.toFloat else d.magnitude.toFloat
  ofBinary64 := Binary64.toFloat
  isFinite := Float.isFinite
  round x := (MachineNumber.exact x + 1 / 2).floor
  ceil x := (MachineNumber.exact x).ceil
  rem := MachineNumber.rem
  toBinary64 := Binary64.ofFloat

instance : Trig Float where
  sqrt := Float.sqrt
  sin := Float.sin
  cos := Float.cos
  atan2 := Float.atan2
  pi := 3.141592653589793

instance : Scalar Rat where
  decidableLT := inferInstance
  decidableLE := inferInstance
  ofInt n := n
  ofDecimal := Decimal.toRat
  ofBinary64 b :=
    match b with
    | .finite q => q
    | _ => 0
  isFinite _ := true
  round q := (q + 1 / 2).floor
  ceil := Rat.ceil
  rem a b := a - truncDiv a b * b
  toBinary64 := Binary64.round

end Flipbook
