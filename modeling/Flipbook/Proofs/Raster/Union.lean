import Flipbook.Proofs.Raster.Draw

/-!
# A drawing is the union of its strokes

Which pixels a segment visits depends on the size of the image alone, and not on what is there
already. All of them get the same colour. So the image of a drawing shows which pixels are visited
by any of its segments, and nothing else: it does not matter in which order they are drawn, how
often, or how they are put together to strokes. Nothing of this depends on arithmetic, so that it
holds of any scalars. With machine numbers there are lines without an end, and then there is no
image at all.

## Main definitions

* `segmentPixels`: the pixels that a segment visits, if its line has an end.
* `LineEnds`, `LinesEnd`: a line comes to its end, and all lines of a drawing do.
* `Image.Lit`: a pixel of an image shows a colour.
* `Image.ShowsOnly`: an image shows a single colour, and is black besides.
* `Redrawn`: two drawings differ in the order, the repetition and the cuts of their strokes.

## Main results

* `rasterize_eq`: drawing is plotting the pixels that the segments visit;
* `lit_drawnPixels_iff`: what is lit;
* `Redrawn.mem_segments_iff`: strokes that are drawn anew have the same segments;
* `rasterize_union`: the image of a drawing is the union of those of its parts.
-/

namespace Flipbook

/-! ## Segments -/

section Segments

variable {α : Type}

/-- The neighbours in a run of points. -/
def neighbours (points : List (Point α)) : List (Point α × Point α) :=
  points.zip points.tail

/-- A run of points can be cut at any of them. -/
theorem neighbours_append (first : List (Point α)) (p : Point α) (last : List (Point α)) :
    neighbours (first ++ p :: last) = neighbours (first ++ [p]) ++ neighbours (p :: last) := by
  induction first with
  | nil => rfl
  | cons a first ih =>
    cases first with
    | nil => rfl
    | cons b first =>
      exact congrArg ((a, b) :: ·) ih

/-- The segments of a stroke with two points or more go from each point to the next one. -/
theorem Stroke.segments_eq_neighbours {stroke : Stroke α} (h : 2 ≤ stroke.length) :
    stroke.segments = neighbours stroke := by
  match stroke with
  | [_] => exact absurd h (Nat.not_succ_le_self 1)
  | _ :: _ :: _ => rfl

/-- A stroke that is cut at an inner point keeps its segments. -/
theorem Stroke.segments_cut {first last : Stroke α} (hfirst : first ≠ []) (hlast : last ≠ [])
    (p : Point α) :
    Stroke.segments (first ++ p :: last) =
      Stroke.segments (first ++ [p]) ++ Stroke.segments (p :: last) := by
  have hbefore := List.length_pos_iff.mpr hfirst
  have hbehind := List.length_pos_iff.mpr hlast
  rw [Stroke.segments_eq_neighbours, Stroke.segments_eq_neighbours, Stroke.segments_eq_neighbours,
    neighbours_append]
  all_goals simp only [List.length_append, List.length_cons, List.length_nil]; omega

/-- The ends of a segment are points of its stroke. -/
theorem Stroke.mem_of_mem_segments {stroke : Stroke α} {segment : Point α × Point α}
    (h : segment ∈ stroke.segments) : segment.1 ∈ stroke ∧ segment.2 ∈ stroke := by
  match stroke with
  | [p] =>
    obtain rfl := List.mem_singleton.mp h
    exact ⟨List.mem_singleton_self p, List.mem_singleton_self p⟩
  | p :: q :: rest =>
    obtain ⟨hfirst, hsecond⟩ := List.of_mem_zip h
    exact ⟨hfirst, List.mem_cons_of_mem p hsecond⟩

/-- Two drawings consist of the same strokes, but for their order, for strokes that are drawn again,
and for strokes that are cut at an inner point, which then belongs to both parts. -/
inductive Redrawn : List (Stroke α) → List (Stroke α) → Prop
  | perm {strokes others : List (Stroke α)} (h : strokes.Perm others) : Redrawn strokes others
  | again {strokes : List (Stroke α)} {stroke : Stroke α} (h : stroke ∈ strokes) :
      Redrawn strokes (stroke :: strokes)
  | cut {first last : Stroke α} (hfirst : first ≠ []) (hlast : last ≠ []) (p : Point α)
      (before after : List (Stroke α)) :
      Redrawn (before ++ (first ++ p :: last) :: after)
        (before ++ (first ++ [p]) :: (p :: last) :: after)
  | symm {strokes others : List (Stroke α)} (h : Redrawn strokes others) : Redrawn others strokes
  | trans {strokes others more : List (Stroke α)} (h : Redrawn strokes others)
      (h' : Redrawn others more) : Redrawn strokes more

namespace Redrawn

variable {strokes others : List (Stroke α)}

/-- The segments stay the same. -/
theorem mem_segments_iff (h : Redrawn strokes others) (segment : Point α × Point α) :
    segment ∈ strokes.flatMap Stroke.segments ↔ segment ∈ others.flatMap Stroke.segments := by
  induction h with
  | perm h => exact (h.flatMap_right _).mem_iff
  | @again strokes stroke h =>
    rw [List.flatMap_cons, List.mem_append, or_iff_right_of_imp]
    intro hsegment
    exact List.mem_flatMap.mpr ⟨stroke, h, hsegment⟩
  | cut hfirst hlast p before after =>
    simp only [List.flatMap_append, List.flatMap_cons, Stroke.segments_cut hfirst hlast,
      List.append_assoc]
  | symm _ ih => exact ih.symm
  | trans _ _ ih ih' => exact ih.trans ih'

/-- So do the points. -/
theorem mem_flatten_iff (h : Redrawn strokes others) (p : Point α) :
    p ∈ strokes.flatten ↔ p ∈ others.flatten := by
  induction h with
  | perm h => exact h.flatten.mem_iff
  | @again strokes stroke h =>
    rw [List.flatten_cons, List.mem_append, or_iff_right_of_imp]
    intro hp
    exact List.mem_flatten.mpr ⟨stroke, h, hp⟩
  | cut hfirst hlast q before after =>
    simp only [List.flatten_append, List.flatten_cons, List.mem_append, List.mem_cons,
      List.not_mem_nil, or_false]
    tauto
  | symm _ ih => exact ih.symm
  | trans _ _ ih ih' => exact ih.trans ih'

end Redrawn

end Segments

namespace Raster

/-! ## Images by their pixels -/

namespace Image

variable {canvas : Canvas} {image other : Image} {colour : Colour} {x y : Int}
  {pixels others : List (Int × Int)}

/-- Images are the same if they show the same colour at each pixel. -/
theorem eq_of_read? (hcanvas : image.canvas = other.canvas)
    (h : ∀ x y, onImage image.canvas x y → image.read? x y = other.read? x y) : image = other := by
  obtain ⟨canvas, pixels, hsize⟩ := image
  obtain ⟨_, others, hsize'⟩ := other
  obtain rfl : canvas = _ := hcanvas
  suffices pixels = others by
    subst this
    rfl
  apply Array.ext_getElem?
  intro i
  by_cases hi : i < canvas.width * canvas.height
  · -- Each place is that of the first byte of a pixel.
    have hbyte : 3 * i < canvas.width * canvas.height * 3 := by omega
    have hon := (@byteOwner_bounds ⟨canvas, pixels, hsize⟩ (3 * i) hbyte).1
    have hread := h _ _ hon
    rw [read?_byteOwner ⟨canvas, pixels, hsize⟩ hbyte] at hread
    have hother := read?_byteOwner ⟨canvas, others, hsize'⟩ hbyte
    rw [hother, Nat.mul_div_cancel_left i (by decide)] at hread
    exact hread
  · rw [Array.getElem?_eq_none (by omega), Array.getElem?_eq_none (by omega)]

theorem plotAll_append (image : Image) (colour : Colour) (pixels others : List (Int × Int)) :
    image.plotAll colour (pixels ++ others) =
      (image.plotAll colour pixels).plotAll colour others := by
  rw [plotAll, List.foldl_append]
  rfl

/-- It does not matter in which order pixels are plotted, or how often. -/
theorem plotAll_congr (h : ∀ pixel, pixel ∈ pixels ↔ pixel ∈ others) (image : Image)
    (colour : Colour) : image.plotAll colour pixels = image.plotAll colour others := by
  apply eq_of_read?
  · rw [plotAll_canvas, plotAll_canvas]
  · intro x y hon
    rw [plotAll_canvas] at hon
    simp only [read?_plotAll hon, h]

/-- The black image shows black at each pixel. -/
theorem read?_blank (h : onImage canvas x y) : (blank canvas).read? x y = some .black := by
  obtain ⟨hplace, hsize⟩ := @offset_bounds (blank canvas) x y h
  rw [read?, if_pos hplace, Array.getElem?_eq_getElem hsize]
  exact congrArg some (Array.getElem_replicate _)

/-- A pixel of the image shows another colour than black. -/
def Lit (image : Image) (x y : Int) : Prop :=
  onImage image.canvas x y ∧ ∃ colour, image.read? x y = some colour ∧ colour ≠ .black

/-- An image of a size shows one colour, wherever it is lit, and all other bytes are zero. -/
structure ShowsOnly (image : Image) (canvas : Canvas) (colour : Colour) : Prop where
  canvas_eq : image.canvas = canvas
  /-- There are three bytes for each pixel. -/
  length_eq : image.toBytes.length = canvas.width * canvas.height * 3
  lit : ∀ x y, image.Lit x y → image.read? x y = some colour
  dark : ∀ j < canvas.width * canvas.height * 3,
    ¬ image.Lit (byteOwner canvas j).1 (byteOwner canvas j).2 → image.toBytes[j]? = some 0

/-- On a black canvas just those pixels are lit that were plotted and are on the image. -/
theorem lit_plotAll_iff :
    ((blank canvas).plotAll colour pixels).Lit x y ↔
      onImage canvas x y ∧ (x, y) ∈ pixels ∧ colour ≠ .black := by
  have hcanvas : ((blank canvas).plotAll colour pixels).canvas = canvas := plotAll_canvas _ _ _
  rw [Lit, hcanvas, and_congr_right_iff]
  intro hon
  rw [read?_plotAll hon, read?_blank hon]
  by_cases hmem : (x, y) ∈ pixels <;> simp [hmem]

/-- A byte of a pixel that is not lit is zero. -/
theorem getElem?_toBytes_of_not_lit {j : Nat}
    (h : j < image.canvas.width * image.canvas.height * 3)
    (hdark : ¬ image.Lit (byteOwner image.canvas j).1 (byteOwner image.canvas j).2) :
    image.toBytes[j]? = some 0 := by
  have hplace : j / 3 < image.pixels.size := by
    rw [image.size_eq]
    omega
  have hread := read?_byteOwner image h
  rw [Array.getElem?_eq_getElem hplace] at hread
  have hblack : image.pixels[j / 3] = .black := by
    by_contra hne
    exact hdark ⟨(byteOwner_bounds h).1, _, hread, hne⟩
  rw [getElem?_toBytes, Array.getElem?_eq_getElem hplace, hblack, Option.bind_some]
  have hmod : j % 3 < 3 := Nat.mod_lt j (by decide)
  generalize j % 3 = component at hmod
  match component with
  | 0 | 1 | 2 => rfl

theorem showsOnly_plotAll : ((blank canvas).plotAll colour pixels).ShowsOnly canvas colour where
  canvas_eq := plotAll_canvas _ _ _
  length_eq := by
    rw [length_toBytes, plotAll_canvas]
    rfl
  lit x y hlit := by
    obtain ⟨hon, hmem, -⟩ := lit_plotAll_iff.mp hlit
    rw [read?_plotAll hon, if_pos hmem]
  dark j hj hdark := by
    have hcanvas : ((blank canvas).plotAll colour pixels).canvas = canvas := plotAll_canvas _ _ _
    apply getElem?_toBytes_of_not_lit
    · rwa [hcanvas]
    · rwa [hcanvas]

end Image

/-! ## Drawings -/

section Drawings

variable {α : Type} [Scalar α] {canvas : Canvas} {colour : Colour} {p q : Point α}
  {strokes others : List (Stroke α)} {segments : List (Point α × Point α)}

/-- The pixel with the given coordinates, if these are numbers. -/
def pixelAt (x y : α) : List (Int × Int) :=
  if Scalar.isFinite x && Scalar.isFinite y then [(Scalar.round x, Scalar.round y)] else []

/-- The pixels that a segment visits on an image of a size, if its line has an end. -/
def segmentPixels (canvas : Canvas) (segment : Point α × Point α) : Option (List (Int × Int)) :=
  match clip canvas.extent segment.1 segment.2 with
  | none => some []
  | some (p, q) =>
    (walkBetween (fun pixels x y => pixels ++ [(x, y)]) p q []).map
      fun pixels => pixels.flatMap fun pixel => pixelAt pixel.1 pixel.2

/-- The line between the pixels that two points round to comes to its end. -/
def LineEnds (p q : Point α) : Prop :=
  let x₀ := Scalar.rounded p.x
  let y₀ := Scalar.rounded p.y
  let x₁ := Scalar.rounded q.x
  let y₁ := Scalar.rounded q.y
  let dx := Scalar.abs (x₁ - x₀)
  let dy := Scalar.abs (y₁ - y₀)
  ∃ pixels, Visits x₁ y₁ dx dy (Scalar.ofInt (direction x₀ x₁)) (Scalar.ofInt (direction y₀ y₁))
    ⟨x₀, y₀, dx - dy⟩ pixels

/-- On an image of a size, the visible parts of all segments of a drawing are lines that come to
their ends. -/
def LinesEnd (canvas : Canvas) (strokes : List (Stroke α)) : Prop :=
  ∀ segment ∈ strokes.flatMap Stroke.segments, ∀ p q,
    clip canvas.extent segment.1 segment.2 = some (p, q) → LineEnds p q

/-- A segment visits its pixels just if its visible part is a line that comes to its end. -/
theorem segmentPixels_ne_none_iff {segment : Point α × Point α} :
    segmentPixels canvas segment ≠ none ↔
      ∀ p q, clip canvas.extent segment.1 segment.2 = some (p, q) → LineEnds p q := by
  rw [segmentPixels]
  cases clip canvas.extent segment.1 segment.2 with
  | none => exact iff_of_true (Option.some_ne_none _) fun _ _ => nofun
  | some ends =>
    dsimp only
    rw [ne_eq, Option.map_eq_none_iff, walkBetween, walk_eq_none_iff, not_not]
    constructor
    · rintro hends p q ⟨⟩
      exact hends
    · exact fun hends => hends _ _ rfl

theorem linesEnd_iff : LinesEnd canvas strokes ↔
    ∀ segment ∈ strokes.flatMap Stroke.segments, segmentPixels canvas segment ≠ none := by
  simp only [LinesEnd, segmentPixels_ne_none_iff]

/-- The lines of two drawings together have ends if those of each of them have. -/
theorem linesEnd_append :
    LinesEnd canvas (strokes ++ others) ↔ LinesEnd canvas strokes ∧ LinesEnd canvas others := by
  rw [LinesEnd, List.flatMap_append, List.forall_mem_append]
  rfl

/-- Strokes that are drawn anew have the same lines. -/
theorem linesEnd_iff_of_redrawn (h : Redrawn strokes others) :
    LinesEnd canvas strokes ↔ LinesEnd canvas others := by
  simp only [LinesEnd, h.mem_segments_iff]

/-- The pixels that the segments of a drawing visit, in drawing order. -/
def drawnPixels (canvas : Canvas) (strokes : List (Stroke α)) : List (Int × Int) :=
  (strokes.flatMap Stroke.segments).flatMap fun segment => (segmentPixels canvas segment).getD []

theorem foldl_plotAt (image : Image) (colour : Colour) (pixels : List (α × α)) :
    pixels.foldl (fun image pixel => image.plotAt colour pixel.1 pixel.2) image =
      image.plotAll colour (pixels.flatMap fun pixel => pixelAt pixel.1 pixel.2) := by
  induction pixels generalizing image with
  | nil => rfl
  | cons pixel pixels ih =>
    rw [List.foldl_cons, ih, List.flatMap_cons, Image.plotAll_append]
    congr 1
    rw [Image.plotAt, pixelAt]
    split <;> rfl

/-- Drawing a clipped segment is plotting the pixels that its line visits. -/
theorem drawClipped_eq_map (image : Image) (colour : Colour) (p q : Point α) :
    image.drawClipped colour p q =
      (walkBetween (fun pixels x y => pixels ++ [(x, y)]) p q []).map fun pixels =>
        image.plotAll colour (pixels.flatMap fun pixel => pixelAt pixel.1 pixel.2) := by
  rw [Image.drawClipped, walkBetween, walkBetween, walk_eq_map]
  exact congrArg (Option.map · _) (funext fun pixels => foldl_plotAt image colour pixels)

/-- Drawing a segment is plotting the pixels that it visits, and never ends if its line does not. -/
theorem drawLine_eq (hp : p.isFinite = true) (hq : q.isFinite = true) (image : Image)
    (colour : Colour) :
    image.drawLine colour p q = match segmentPixels image.canvas (p, q) with
      | some pixels => .ok (image.plotAll colour pixels)
      | none => .error .endlessLine := by
  rw [Image.drawLine, hp, hq, segmentPixels]
  dsimp only [Bool.not_true, Bool.false_eq_true, if_false]
  cases clip image.canvas.extent p q with
  | none => rfl
  | some ends =>
    dsimp only
    rw [drawClipped_eq_map]
    cases walkBetween (fun pixels x y => pixels ++ [(x, y)]) ends.1 ends.2 [] <;> rfl

/-- Segments with finite ends whose lines have ends can be drawn one after the other, which is
plotting the pixels that they visit. -/
theorem foldlM_drawLine_eq
    (h : ∀ segment ∈ segments, segment.1.isFinite = true ∧ segment.2.isFinite = true)
    (image : Image) (colour : Colour)
    (hends : ∀ segment ∈ segments, segmentPixels image.canvas segment ≠ none) :
    segments.foldlM (fun image (p, q) => image.drawLine colour p q) image =
      .ok (image.plotAll colour
        (segments.flatMap fun segment => (segmentPixels image.canvas segment).getD [])) := by
  induction segments generalizing image with
  | nil => rfl
  | cons segment segments ih =>
    -- The image changes, but not its size, on which alone the pixels of the others depend.
    obtain ⟨p, q⟩ := segment
    obtain ⟨⟨hp, hq⟩, hrest⟩ := List.forall_mem_cons.mp h
    obtain ⟨hend, hends⟩ := List.forall_mem_cons.mp hends
    obtain ⟨pixels, hpixels⟩ := Option.ne_none_iff_exists'.mp hend
    rw [List.foldlM_cons]
    show (image.drawLine colour p q >>= fun image => segments.foldlM _ image) = _
    rw [drawLine_eq hp hq, hpixels]
    show segments.foldlM _ (image.plotAll colour pixels) = _
    rw [ih hrest _ (by rwa [Image.plotAll_canvas]), Image.plotAll_canvas, ← Image.plotAll_append,
      List.flatMap_cons, hpixels, Option.getD_some]

/-- If a line among them has no end, drawing them never ends. -/
theorem foldlM_drawLine_eq_error
    (h : ∀ segment ∈ segments, segment.1.isFinite = true ∧ segment.2.isFinite = true)
    (image : Image) (colour : Colour)
    (hends : ¬ ∀ segment ∈ segments, segmentPixels image.canvas segment ≠ none) :
    segments.foldlM (fun image (p, q) => image.drawLine colour p q) image =
      .error .endlessLine := by
  induction segments generalizing image with
  | nil => exact absurd nofun hends
  | cons segment segments ih =>
    obtain ⟨p, q⟩ := segment
    obtain ⟨⟨hp, hq⟩, hrest⟩ := List.forall_mem_cons.mp h
    rw [List.foldlM_cons]
    show (image.drawLine colour p q >>= fun image => segments.foldlM _ image) = _
    rw [drawLine_eq hp hq]
    cases hpixels : segmentPixels image.canvas (p, q) with
    | none => rfl
    | some pixels =>
      -- It is one of the other lines that has no end.
      show segments.foldlM _ (image.plotAll colour pixels) = _
      refine ih hrest _ fun hothers => hends (List.forall_mem_cons.mpr ⟨?_, ?_⟩)
      · rw [hpixels]
        exact Option.some_ne_none _
      · rwa [Image.plotAll_canvas] at hothers

/-- The segments of a drawing with finite points have finite ends. -/
theorem isFinite_of_mem_segments (h : ∀ p ∈ strokes.flatten, p.isFinite = true) :
    ∀ segment ∈ strokes.flatMap Stroke.segments,
      segment.1.isFinite = true ∧ segment.2.isFinite = true := by
  intro segment hsegment
  obtain ⟨stroke, hstroke, hsegment⟩ := List.mem_flatMap.mp hsegment
  obtain ⟨hfirst, hsecond⟩ := Stroke.mem_of_mem_segments hsegment
  exact ⟨h _ (List.mem_flatten_of_mem hstroke hfirst),
    h _ (List.mem_flatten_of_mem hstroke hsecond)⟩

/-- A drawing with finite points whose lines have ends has an image, on which the pixels are plotted
that its segments visit. -/
theorem rasterize_eq (h : ∀ p ∈ strokes.flatten, p.isFinite = true) (canvas : Canvas)
    (colour : Colour) (hends : LinesEnd canvas strokes) :
    rasterize canvas colour strokes =
      .ok ((Image.blank canvas).plotAll colour (drawnPixels canvas strokes)) :=
  foldlM_drawLine_eq (isFinite_of_mem_segments h) (Image.blank canvas) colour
    (linesEnd_iff.mp hends)

/-- Drawing one with a line that has no end goes on forever. -/
theorem rasterize_eq_error (h : ∀ p ∈ strokes.flatten, p.isFinite = true) (canvas : Canvas)
    (colour : Colour) (hends : ¬ LinesEnd canvas strokes) :
    rasterize canvas colour strokes = .error .endlessLine :=
  foldlM_drawLine_eq_error (isFinite_of_mem_segments h) (Image.blank canvas) colour
    (mt linesEnd_iff.mpr hends)

/-- So there is an image just if all lines have ends. -/
theorem exists_image_iff (h : ∀ p ∈ strokes.flatten, p.isFinite = true) (canvas : Canvas)
    (colour : Colour) :
    (∃ image, rasterize canvas colour strokes = .ok image) ↔ LinesEnd canvas strokes := by
  constructor
  · rintro ⟨image, himage⟩
    by_contra hends
    rw [rasterize_eq_error h canvas colour hends] at himage
    cases himage
  · exact fun hends => ⟨_, rasterize_eq h canvas colour hends⟩

/-- In exact arithmetic every drawing has an image. -/
theorem linesEnd_exact (canvas : Canvas) (strokes : List (Stroke Rat)) :
    LinesEnd canvas strokes := by
  refine linesEnd_iff.mpr ?_
  rintro ⟨p, q⟩ - hnone
  obtain ⟨visited, drawn, hdrawn, -⟩ := drawLine_bounded (Image.blank canvas) .black p q
  have hcanvas : (Image.blank canvas).canvas = canvas := rfl
  rw [drawLine_eq rfl rfl, hcanvas, hnone] at hdrawn
  cases hdrawn

/-- On the image of a drawing just those pixels are lit that a segment of it visits. -/
theorem lit_drawnPixels_iff {x y : Int} :
    ((Image.blank canvas).plotAll colour (drawnPixels canvas strokes)).Lit x y ↔
      (Image.onImage canvas x y ∧ colour ≠ .black) ∧ ∃ stroke ∈ strokes,
        ∃ segment ∈ stroke.segments, (x, y) ∈ (segmentPixels canvas segment).getD [] := by
  rw [Image.lit_plotAll_iff, and_assoc]
  simp only [drawnPixels, List.mem_flatMap]
  tauto

/-- Drawings with the same segments have the same image, or none. -/
theorem rasterize_of_redrawn (h : Redrawn strokes others)
    (hfinite : ∀ p ∈ strokes.flatten, p.isFinite = true) (canvas : Canvas) (colour : Colour) :
    rasterize canvas colour others = rasterize canvas colour strokes := by
  -- The points stay the same, too.
  have hothers : ∀ p ∈ others.flatten, p.isFinite = true := fun p hp =>
    hfinite p ((h.mem_flatten_iff p).mpr hp)
  by_cases hends : LinesEnd canvas strokes
  · rw [rasterize_eq hfinite _ _ hends,
      rasterize_eq hothers _ _ ((linesEnd_iff_of_redrawn h).mp hends)]
    refine congrArg Except.ok (Image.plotAll_congr (fun pixel => ?_) _ _)
    simp only [drawnPixels,
      List.mem_flatMap (f := fun segment => (segmentPixels canvas segment).getD []),
      h.mem_segments_iff]
  · rw [rasterize_eq_error hfinite _ _ hends,
      rasterize_eq_error hothers _ _ fun hothers => hends ((linesEnd_iff_of_redrawn h).mpr hothers)]

/-- The images of two drawings, and that of both together: on the image of both just those pixels
are lit that are lit on one of the two. Images show one colour and are black besides. -/
structure Together (canvas : Canvas) (colour : Colour) (strokes others : List (Stroke α))
    (image other both : Image) : Prop where
  first : rasterize canvas colour strokes = .ok image
  second : rasterize canvas colour others = .ok other
  together : rasterize canvas colour (strokes ++ others) = .ok both
  union : ∀ x y, both.Lit x y ↔ image.Lit x y ∨ other.Lit x y
  showsOnly : image.ShowsOnly canvas colour ∧ other.ShowsOnly canvas colour ∧
    both.ShowsOnly canvas colour

/-- Two drawings with finite points have images that together make up the image of both, just if all
their lines have ends; otherwise drawing both goes on forever. Strokes may be drawn in another order
or again, or be cut: the image stays the same, and so does that there is none. -/
theorem rasterize_union (canvas : Canvas) (colour : Colour)
    (hstrokes : ∀ p ∈ strokes.flatten, p.isFinite = true)
    (hothers : ∀ p ∈ others.flatten, p.isFinite = true) :
    ((∃ image other both, Together canvas colour strokes others image other both) ↔
      LinesEnd canvas strokes ∧ LinesEnd canvas others) ∧
    (rasterize canvas colour (strokes ++ others) = .error .endlessLine ↔
      ¬ (LinesEnd canvas strokes ∧ LinesEnd canvas others)) ∧
    ∀ anew, Redrawn strokes anew →
      rasterize canvas colour anew = rasterize canvas colour strokes := by
  have hboth : ∀ p ∈ (strokes ++ others).flatten, p.isFinite = true := by
    rw [List.flatten_append]
    exact List.forall_mem_append.mpr ⟨hstrokes, hothers⟩
  refine ⟨⟨?_, ?_⟩, ⟨?_, ?_⟩, fun anew hanew => rasterize_of_redrawn hanew hstrokes canvas colour⟩
  · rintro ⟨image, other, both, h⟩
    exact ⟨(exists_image_iff hstrokes canvas colour).mp ⟨image, h.first⟩,
      (exists_image_iff hothers canvas colour).mp ⟨other, h.second⟩⟩
  · rintro ⟨hends, hends'⟩
    refine ⟨_, _, _, rasterize_eq hstrokes canvas colour hends,
      rasterize_eq hothers canvas colour hends',
      rasterize_eq hboth canvas colour (linesEnd_append.mpr ⟨hends, hends'⟩), fun x y => ?_,
      Image.showsOnly_plotAll, Image.showsOnly_plotAll, Image.showsOnly_plotAll⟩
    -- A stroke of both drawings is one of the first or one of the second.
    simp only [lit_drawnPixels_iff, ← and_or_left, List.mem_append, or_and_right, exists_or]
  · rintro hendless ⟨hends, hends'⟩
    rw [rasterize_eq hboth canvas colour (linesEnd_append.mpr ⟨hends, hends'⟩)] at hendless
    cases hendless
  · exact fun hends => rasterize_eq_error hboth canvas colour (mt linesEnd_append.mp hends)

/-- A stroke of three points that comes in from the left of the image. -/
def hookStroke : Stroke Rat :=
  [⟨-5, 0⟩, ⟨1, 0⟩, ⟨1, 2⟩]

/-- The hook with a dot and an empty stroke, and the hook drawn in two parts. -/
theorem rasterize_union_hook :
    (∀ p ∈ [hookStroke].flatten, p.isFinite = true) ∧
    (∀ p ∈ [[⟨2, 1⟩], ([] : Stroke Rat)].flatten, p.isFinite = true) ∧
    (∃ image other both,
      Together ⟨3, 2⟩ .phosphor [hookStroke] [[⟨2, 1⟩], []] image other both) ∧
    rasterize (α := Rat) ⟨3, 2⟩ .phosphor [[⟨-5, 0⟩, ⟨1, 0⟩], [⟨1, 0⟩, ⟨1, 2⟩]] =
      rasterize ⟨3, 2⟩ .phosphor [hookStroke] := by
  have hhook : ∀ p ∈ [hookStroke].flatten, p.isFinite = true := fun _ _ => rfl
  have hdot : ∀ p ∈ [[⟨2, 1⟩], ([] : Stroke Rat)].flatten, p.isFinite = true := fun _ _ => rfl
  obtain ⟨himages, -, hanew⟩ := rasterize_union ⟨3, 2⟩ .phosphor hhook hdot
  refine ⟨hhook, hdot, himages.mpr ⟨linesEnd_exact _ _, linesEnd_exact _ _⟩, hanew _ ?_⟩
  show Redrawn ([] ++ ([⟨-5, 0⟩] ++ (⟨1, 0⟩ : Point Rat) :: [⟨1, 2⟩]) :: []) _
  exact .cut (List.cons_ne_nil _ _) (List.cons_ne_nil _ _) ⟨1, 0⟩ [] []

end Drawings

/-- A point far on the left. -/
def farLeft : Point Float :=
  ⟨-1e308, 0⟩

/-- A point far on the right. Its distance from the other one is greater than any machine number. -/
def farRight : Point Float :=
  ⟨1e308, 0⟩

/-- The stroke between these points. -/
def wideStroke : Stroke Float :=
  [farLeft, farRight]

/-- A stroke of one point. -/
def dotStroke : Stroke Float :=
  [⟨1, 1⟩]

/-- The visible part of this stroke ends at a point without a number, toward which its line does not
move. -/
theorem segmentPixels_wideStroke :
    segmentPixels ⟨4, 4⟩ (farLeft, farRight) = none := by
  have hclip : clip (Canvas.extent ⟨4, 4⟩) farLeft farRight = some (farLeft, ⟨0 / 0, 0⟩) := by
    decide +kernel
  rw [segmentPixels, hclip]
  dsimp only
  rw [Option.map_eq_none_iff, walkBetween, walk_eq_none_iff]
  rintro ⟨pixels, hpixels⟩
  exact not_visits_of_step_eq (by decide +kernel) (by decide +kernel) hpixels

/-- A dot visits its pixel. -/
theorem segmentPixels_dot :
    segmentPixels ⟨4, 4⟩ (⟨1, 1⟩, (⟨1, 1⟩ : Point Float)) = some [(1, 1)] := by
  have hclip : clip (Canvas.extent ⟨4, 4⟩) ⟨1, 1⟩ (⟨1, 1⟩ : Point Float) =
      some (⟨1, 1⟩, ⟨1, 1⟩) := by
    decide +kernel
  rw [segmentPixels, hclip]
  dsimp only
  rw [walkBetween, LineState.walk, if_pos (by decide +kernel)]
  decide +kernel

/-- A dot has an image on which it is lit, but drawing it with the stroke goes on forever. -/
theorem not_together_wideStroke :
    (∀ p ∈ [wideStroke].flatten, p.isFinite = true) ∧
    (∀ p ∈ [dotStroke].flatten, p.isFinite = true) ∧
    (∃ image, rasterize ⟨4, 4⟩ .phosphor [dotStroke] = .ok image ∧ image.Lit 1 1) ∧
    rasterize ⟨4, 4⟩ .phosphor ([wideStroke] ++ [dotStroke]) = .error .endlessLine := by
  have hwide : ∀ p ∈ [wideStroke].flatten, p.isFinite = true := by decide +kernel
  have hdot : ∀ p ∈ [dotStroke].flatten, p.isFinite = true := by decide +kernel
  have hboth : ∀ p ∈ ([wideStroke] ++ [dotStroke]).flatten, p.isFinite = true := by
    rw [List.flatten_append]
    exact List.forall_mem_append.mpr ⟨hwide, hdot⟩
  have hends : LinesEnd ⟨4, 4⟩ [dotStroke] := by
    refine linesEnd_iff.mpr fun segment hsegment => ?_
    obtain rfl := List.mem_singleton.mp hsegment
    rw [segmentPixels_dot]
    exact Option.some_ne_none _
  refine ⟨hwide, hdot, ⟨_, rasterize_eq hdot _ _ hends, lit_drawnPixels_iff.mpr ⟨?_, ?_⟩⟩,
    rasterize_eq_error hboth _ _ fun hlines => ?_⟩
  · decide
  · refine ⟨_, List.mem_singleton_self _, _, List.mem_singleton_self _, ?_⟩
    rw [segmentPixels_dot]
    exact List.mem_singleton_self _
  · exact linesEnd_iff.mp hlines _ List.mem_cons_self segmentPixels_wideStroke

end Raster

end Flipbook
