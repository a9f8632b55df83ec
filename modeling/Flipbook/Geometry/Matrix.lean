import Flipbook.Geometry.Point

/-!
# Affine maps of the plane

A matrix `(a b c d e f)` maps `(x, y)` to `(a x + c y + e, b x + d y + f)`.

## Main definitions

* `Matrix.apply`: the image of a point.
* `Matrix.mul`, `Matrix.product`: composition; the last factor is applied first.
* `Matrix.displacement`, `Matrix.scaling`, `Matrix.rotation`.
-/

namespace Flipbook

/-- An affine map of the plane. -/
@[ext]
structure Matrix (α : Type) where
  /-- The share of the abscissa in the new abscissa. -/
  a : α
  /-- The share of the abscissa in the new ordinate. -/
  b : α
  /-- The share of the ordinate in the new abscissa. -/
  c : α
  /-- The share of the ordinate in the new ordinate. -/
  d : α
  /-- The abscissa of the image of the origin. -/
  e : α
  /-- The ordinate of the image of the origin. -/
  f : α
  deriving DecidableEq, Repr

namespace Matrix

variable {α : Type} [Scalar α]

/-- The map that leaves every point where it is. -/
def one : Matrix α :=
  ⟨Scalar.ofInt 1, Scalar.ofInt 0, Scalar.ofInt 0, Scalar.ofInt 1, Scalar.ofInt 0, Scalar.ofInt 0⟩

/-- The map that displaces every point. -/
def displacement (dx dy : α) : Matrix α :=
  { one with e := dx, f := dy }

/-- The map that stretches the axes about the origin. -/
def scaling (sx sy : α) : Matrix α :=
  { one with a := sx, d := sy }

/-- The map that turns the plane anticlockwise about the origin, by an angle in degrees. -/
def rotation {α : Type} [Trig α] (degrees : α) : Matrix α :=
  let theta := radians degrees
  { (one : Matrix α) with
    a := Trig.cos theta, b := Trig.sin theta, c := -Trig.sin theta, d := Trig.cos theta }

/-- The map that applies `n` and then `m`. -/
def mul (m n : Matrix α) : Matrix α where
  a := m.a * n.a + m.c * n.b
  b := m.b * n.a + m.d * n.b
  c := m.a * n.c + m.c * n.d
  d := m.b * n.c + m.d * n.d
  e := m.a * n.e + m.c * n.f + m.e
  f := m.b * n.e + m.d * n.f + m.f

/-- The product from left to right, so that the last matrix is applied first. -/
def product (ms : List (Matrix α)) : Matrix α :=
  ms.foldl mul one

/-- The image of a point. -/
def apply (m : Matrix α) (p : Point α) : Point α where
  x := m.a * p.x + m.c * p.y + m.e
  y := m.b * p.x + m.d * p.y + m.f

/-- The image of a drawing. -/
def applyStrokes (m : Matrix α) (strokes : List (Stroke α)) : List (Stroke α) :=
  strokes.map fun stroke => stroke.map m.apply

end Matrix

end Flipbook
