import Mathlib.Algebra.Order.Field.Rat
import Mathlib.Algebra.Order.Group.Unbundled.Abs
import Flipbook.Number.Scalar

/-!
# Exact numbers with the outcomes of a division by zero

The rational numbers, together with two infinities and a value that is no number. All operations are
exact; the three additional values come from a division by zero, and go on from there as those of
machine numbers do. There is one zero: no sign of a zero is kept.

## Main definitions

* `ExtendedRat`: the numbers; they are scalars.

## Main results

* `ExtendedRat.finite_add`, `ExtendedRat.finite_mul` and so on: on rational numbers the operations
  are those of rational numbers, except that of dividing by zero;
* `ExtendedRat.finite_div`, `ExtendedRat.div_zero_of_pos`, `ExtendedRat.zero_div_zero`: division.
-/

namespace Flipbook

/-- Rational numbers, and what a division by zero gives. -/
inductive ExtendedRat where
  /-- A rational number. -/
  | finite (value : Rat)
  /-- One of the two infinities. -/
  | infinite (negative : Bool)
  /-- The result of an operation without a value. -/
  | nan
  deriving DecidableEq, Repr

namespace ExtendedRat

/-- The number with the opposite sign. -/
def neg : ExtendedRat → ExtendedRat
  | finite a => finite (-a)
  | infinite s => infinite !s
  | nan => nan

/-- The sum. Infinities of opposite sign have none. -/
def add : ExtendedRat → ExtendedRat → ExtendedRat
  | finite a, finite b => finite (a + b)
  | finite _, infinite s => infinite s
  | infinite s, finite _ => infinite s
  | infinite s, infinite t => if s = t then infinite s else nan
  | _, _ => nan

/-- An infinity times a rational number. There is no such product with zero. -/
def scale (negative : Bool) (a : Rat) : ExtendedRat :=
  if a = 0 then nan else infinite (negative != decide (a < 0))

/-- The product. -/
def mul : ExtendedRat → ExtendedRat → ExtendedRat
  | finite a, finite b => finite (a * b)
  | finite a, infinite s => scale s a
  | infinite s, finite a => scale s a
  | infinite s, infinite t => infinite (s != t)
  | _, _ => nan

/-- The quotient. A quotient by zero is infinite, or there is none if the dividend is zero, too. -/
def div : ExtendedRat → ExtendedRat → ExtendedRat
  | finite a, finite b =>
    -- The one zero counts as positive.
    if b ≠ 0 then finite (a / b) else if a = 0 then nan else infinite (decide (a < 0))
  | finite _, infinite _ => finite 0
  | infinite s, finite b => infinite (s != decide (b < 0))
  | _, _ => nan

/-- The remainder of a division that goes toward zero. -/
def rem : ExtendedRat → ExtendedRat → ExtendedRat
  | finite a, finite b => if b = 0 then nan else finite (a - truncDiv a b * b)
  | finite a, infinite _ => finite a
  | _, _ => nan

/-- The order of the numbers; `nan` is in no relation to any number. -/
def lt : ExtendedRat → ExtendedRat → Bool
  | finite a, finite b => decide (a < b)
  | finite _, infinite s => !s
  | infinite s, finite _ => s
  | infinite s, infinite t => s && !t
  | _, _ => false

/-- Whether two numbers are the same number; `nan` differs from itself. -/
def same : ExtendedRat → ExtendedRat → Bool
  | nan, _ => false
  | a, b => decide (a = b)

/-- The integer that a rounding of rational numbers gives; zero where there is no number. -/
def rounded (rounding : Rat → Int) : ExtendedRat → Int
  | finite a => rounding a
  | _ => 0

instance : Scalar ExtendedRat where
  add := add
  sub a b := add a (neg b)
  mul := mul
  div := div
  neg := neg
  lt a b := a.lt b = true
  le a b := (a.lt b || a.same b) = true
  beq := same
  decidableLT a b := inferInstanceAs (Decidable (a.lt b = true))
  decidableLE a b := inferInstanceAs (Decidable ((a.lt b || a.same b) = true))
  ofInt n := finite n
  ofDecimal d := finite d.toRat
  ofBinary64
    | .finite a => finite a
    | .infinite s => infinite s
    | .nan => nan
  isFinite
    | finite _ => true
    | _ => false
  round := rounded fun a => (a + 1 / 2).floor
  ceil := rounded Rat.ceil
  rem := rem
  toBinary64
    | finite a => .round a
    | infinite s => .infinite s
    | nan => .nan

variable {a b : Rat} {v : ExtendedRat}

/-! ## Rational numbers among them -/

@[simp]
theorem ofInt_eq (n : Int) : (Scalar.ofInt n : ExtendedRat) = finite n :=
  rfl

@[simp]
theorem finite_add (a b : Rat) : finite a + finite b = finite (a + b) :=
  rfl

@[simp]
theorem finite_neg (a : Rat) : -finite a = finite (-a) :=
  rfl

@[simp]
theorem finite_sub (a b : Rat) : finite a - finite b = finite (a - b) :=
  congrArg finite (sub_eq_add_neg a b).symm

@[simp]
theorem finite_mul (a b : Rat) : finite a * finite b = finite (a * b) :=
  rfl

theorem finite_div (a : Rat) (h : b ≠ 0) : finite a / finite b = finite (a / b) :=
  if_pos h

theorem div_zero_of_pos (h : 0 < a) : finite a / finite 0 = infinite false := by
  have hdiv : finite a / finite 0 = if a = 0 then nan else infinite (decide (a < 0)) := rfl
  rw [hdiv, if_neg h.ne', decide_eq_false h.not_gt]

theorem zero_div_zero : finite 0 / finite 0 = nan :=
  rfl

@[simp]
theorem finite_lt_finite : finite a < finite b ↔ a < b :=
  decide_eq_true_iff

@[simp]
theorem finite_le_finite : finite a ≤ finite b ↔ a ≤ b := by
  have hle : finite a ≤ finite b ↔ (decide (a < b) || decide (finite a = finite b)) = true :=
    Iff.rfl
  rw [hle, Bool.or_eq_true, decide_eq_true_iff, decide_eq_true_iff, finite.injEq, le_iff_lt_or_eq]

@[simp]
theorem isZero_finite : Scalar.isZero (finite a) = true ↔ a = 0 := by
  have hzero : Scalar.isZero (finite a) = decide (finite a = finite 0) := rfl
  rw [hzero, decide_eq_true_iff, finite.injEq]

@[simp]
theorem abs_finite (a : Rat) : Scalar.abs (finite a) = finite |a| := by
  rw [Scalar.abs, ofInt_eq, Int.cast_zero]
  split_ifs with h
  · rw [finite_neg, abs_of_neg (finite_lt_finite.mp h)]
  · rw [abs_of_nonneg (not_lt.mp (mt finite_lt_finite.mpr h))]

theorem isFinite_iff : Scalar.isFinite v = true ↔ ∃ a, v = finite a := by
  cases v with
  | finite a => exact ⟨fun _ => ⟨a, rfl⟩, fun _ => rfl⟩
  | infinite s => exact ⟨nofun, by rintro ⟨a, h⟩; cases h⟩
  | nan => exact ⟨nofun, by rintro ⟨a, h⟩; cases h⟩

/-! ## No number -/

theorem finite_lt_infinite (a : Rat) : finite a < infinite false :=
  rfl

theorem not_lt_nan (v : ExtendedRat) : ¬ v < nan := by
  cases v <;> exact Bool.false_ne_true

end ExtendedRat

end Flipbook
