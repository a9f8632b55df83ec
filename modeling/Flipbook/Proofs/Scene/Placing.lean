import Flipbook.Proofs.Geometry.Affine
import Flipbook.Scene.Flatten

/-!
# Placing the drawings of a scene

Flattening a scene multiplies the matrix of a pose by the one that fits the drawing to the canvas,
and maps every point once. In exact arithmetic this is the same as fitting the drawing and then
posing what comes out.

## Main definitions

* `Drawable.strokesInTurn`, `Scene.flattenInTurn`: fitting first and posing second.
* `quarterTurns`: exact functions of angles, as far as quarter turns are concerned.

## Main results

* `Drawable.strokes_eq_inTurn`: the strokes of something to be drawn, either way;
* `placed_exactly`: poses, products and scenes in exact arithmetic.
-/

namespace Flipbook

variable {K : Type} [Trig K]

/-- The strokes of something to be drawn, in two steps: the drawing is fitted to the canvas, if it
has to be, and then posed. -/
def Drawable.strokesInTurn (library : Library K) (canvas : Canvas) :
    Drawable K → Except Error (List (Stroke K))
  | .element _ source fit _ transform => do
    let drawing ← library.get source
    let fitted :=
      if fit then (drawing.bounds.fit canvas.extent).applyStrokes drawing.strokes
      else drawing.strokes
    .ok (transform.applyStrokes fitted)
  | .line _ start finish => .ok [[start, finish]]

/-- The strokes of a scene, each drawing being fitted and then posed. -/
def Scene.flattenInTurn (scene : Scene K) (library : Library K) (canvas : Canvas) :
    Except Error (List (Stroke K)) := do
  let parts ← scene.drawables.mapM (Drawable.strokesInTurn library canvas)
  .ok parts.flatten

variable [ExactScalar K]

theorem Matrix.applyStrokes_mul (m n : Matrix K) (strokes : List (Stroke K)) :
    (m.mul n).applyStrokes strokes = m.applyStrokes (n.applyStrokes strokes) := by
  have hpoint : (m.mul n).apply = m.apply ∘ n.apply := funext (apply_mul m n)
  simp only [applyStrokes, List.map_map, Function.comp_def, hpoint]

theorem Drawable.strokes_eq_inTurn (library : Library K) (canvas : Canvas) (d : Drawable K) :
    d.strokes library canvas = d.strokesInTurn library canvas := by
  cases d with
  | line index start finish => rfl
  | element id source fit pose transform =>
    rw [strokes, strokesInTurn]
    cases fit with
    | false => rfl
    | true => simp only [if_true, Matrix.applyStrokes_mul]

theorem Scene.flatten_eq_inTurn (scene : Scene K) (library : Library K) (canvas : Canvas) :
    scene.flatten library canvas = scene.flattenInTurn library canvas := by
  rw [flatten, flattenInTurn, funext (Drawable.strokes_eq_inTurn library canvas)]

/-- In exact arithmetic the matrix of a pose stretches and turns every point about the centre of the
canvas and then displaces it, whether it is a product or not; products are applied from the right;
and flattening a scene places every drawing as fitting first and posing second does. -/
theorem placed_exactly (hcos : Trig.cos (Scalar.ofInt 0 : K) = Scalar.ofInt 1)
    (hsin : Trig.sin (Scalar.ofInt 0 : K) = Scalar.ofInt 0) :
    (∀ (pose : Pose K) (area : Extent K) (p : Point K),
      let centre : Point K := ⟨(area.width - Scalar.ofInt 1) / Scalar.ofInt 2,
        (area.height - Scalar.ofInt 1) / Scalar.ofInt 2⟩
      (pose.matrix area).apply p = ⟨pose.x, pose.y⟩ + centre +
        ((p - centre).stretch pose.scaleX pose.scaleY).turn pose.rotation) ∧
    (∀ (ms : List (Matrix K)) (p : Point K),
      (Matrix.product ms).apply p = ms.foldr Matrix.apply p) ∧
    ∀ (scene : Scene K) (library : Library K) (canvas : Canvas),
      scene.flatten library canvas = scene.flattenInTurn library canvas :=
  ⟨Pose.apply_matrix hcos hsin, Matrix.apply_product, Scene.flatten_eq_inTurn⟩

/-- Exact functions of angles for quarter turns; half a turn has the measure 180. At other angles
they are not defined, and give zero. -/
abbrev quarterTurns : Trig Rat where
  toScalar := inferInstance
  sqrt q := mkRat q.num.toNat.sqrt q.den.sqrt
  sin angle := if angle = 90 then 1 else if angle = 270 then -1 else 0
  cos angle := if angle = 0 then 1 else if angle = 180 then -1 else 0
  atan2 y x := if 0 < y then 90 else if y < 0 then 270 else if x < 0 then 180 else 0
  pi := 180

/-- A drawing that is fitted and then turned. -/
def turnedScene : Scene Rat :=
  let pose : Pose Rat := ⟨5, -5, 90, 2, 3⟩
  let := quarterTurns
  ⟨0, 0, [.element "mast" "mast.plt" true pose (pose.matrix (Canvas.extent ⟨5, 3⟩))]⟩

/-- A library with a high drawing. -/
def mastLibrary : Library Rat :=
  ⟨[("mast.plt", .ofStrokes [[⟨1, 1⟩, ⟨1, 5⟩, ⟨2, 5⟩]])]⟩

theorem placed_exactly_turnedScene :
    let := quarterTurns
    Trig.cos (Scalar.ofInt 0 : Rat) = Scalar.ofInt 1 ∧
      Trig.sin (Scalar.ofInt 0 : Rat) = Scalar.ofInt 0 ∧
      ((⟨5, -5, 90, 2, 3⟩ : Pose Rat).matrix (Canvas.extent ⟨5, 3⟩)).apply ⟨3, 1⟩ = ⟨7, -2⟩ ∧
      (Matrix.product [.displacement 10 0, .scaling 2 2]).apply ⟨1, 1⟩ = (⟨12, 2⟩ : Point Rat) ∧
      (turnedScene.flatten mastLibrary ⟨5, 3⟩).toOption =
        some [[⟨10, -9 / 2⟩, ⟨4, -9 / 2⟩, ⟨4, -7 / 2⟩]] := by
  let := quarterTurns
  have hcos : Trig.cos (Scalar.ofInt 0 : Rat) = Scalar.ofInt 1 := by decide
  have hsin : Trig.sin (Scalar.ofInt 0 : Rat) = Scalar.ofInt 0 := by decide
  obtain ⟨hpose, hproduct, hscene⟩ := placed_exactly hcos hsin
  refine ⟨hcos, hsin, ?_, ?_, ?_⟩
  · rw [hpose]
    decide +kernel
  · rw [hproduct]
    decide +kernel
  · rw [hscene]
    decide +kernel

end Flipbook
