import Mathlib.Data.Prod.Basic
import Flipbook.Proofs.Archive.Chunks
import Flipbook.Raster.Image

/-!
# What plotting changes of an image

A pixel is coloured in its place and nowhere else: pixels of the image do not share a place, and one
that is not on the image has none. So after any number of plots an image shows the colour at the
pixels that were plotted, and what it showed before everywhere else, byte by byte.

## Main definitions

* `byteOwner`: the pixel that a byte of an image belongs to.

## Main results

* `read?_plotAll`: what an image shows after some plots;
* `toBytes_plot`: the three bytes that a plot writes;
* `getElem?_toBytes_plotAll`: the bytes that plots leave as they are.
-/

namespace Flipbook.Raster.Image

variable {canvas : Canvas} {image : Image} {colour : Colour} {a b x y : Int}

/-! ## Places in row order -/

theorem onImage_iff :
    onImage canvas x y = true ↔ (0 ≤ x ∧ x < canvas.width) ∧ 0 ≤ y ∧ y < canvas.height := by
  simp [onImage, and_assoc]

/-- The column of a pixel and its row from the top can be told from its place. -/
theorem offset_emod_ediv (h : onImage image.canvas x y) :
    image.offset x y % image.canvas.width = x ∧
      image.offset x y / image.canvas.width = image.canvas.height - 1 - y := by
  obtain ⟨⟨hx, hx'⟩, -⟩ := onImage_iff.mp h
  have hwidth : (image.canvas.width : Int) ≠ 0 := by omega
  constructor
  · rw [offset, Int.mul_add_emod_self_right, Int.emod_eq_of_lt hx hx']
  · rw [offset, Int.add_comm, Int.add_mul_ediv_right _ _ hwidth, Int.ediv_eq_zero_of_lt hx hx',
      Int.zero_add]

/-- Pixels of the image do not share a place. -/
theorem offset_inj (h : onImage image.canvas x y) (h' : onImage image.canvas a b) :
    image.offset x y = image.offset a b ↔ (x, y) = (a, b) := by
  constructor
  · intro heq
    obtain ⟨hcolumn, hrow⟩ := offset_emod_ediv h
    obtain ⟨hcolumn', hrow'⟩ := offset_emod_ediv h'
    rw [heq, hcolumn'] at hcolumn
    rw [heq, hrow'] at hrow
    rw [Prod.mk.injEq]
    omega
  · intro heq
    obtain ⟨rfl, rfl⟩ := Prod.mk.inj heq
    rfl

/-- The image has the places of its pixels. -/
theorem offset_bounds (h : onImage image.canvas x y) :
    0 ≤ image.offset x y ∧ (image.offset x y).toNat < image.pixels.size := by
  obtain ⟨⟨hx, hx'⟩, hy, hy'⟩ := onImage_iff.mp h
  -- There is room for the row of the pixel, and for those above it.
  have habove : 0 ≤ (image.canvas.height - 1 - y) * image.canvas.width :=
    Int.mul_nonneg (by omega) (by omega)
  have hrow : (image.canvas.height - 1 - y + 1) * image.canvas.width ≤
      (image.canvas.height : Int) * image.canvas.width :=
    Int.mul_le_mul_of_nonneg_right (by omega) (by omega)
  rw [Int.add_mul, Int.one_mul] at hrow
  rw [image.size_eq, offset]
  refine ⟨by omega, ?_⟩
  rw [Int.toNat_lt (by omega)]
  push_cast
  rw [Int.mul_comm (image.canvas.width : Int)]
  omega

/-! ## Plots -/

@[simp]
theorem plot_canvas (image : Image) (colour : Colour) (x y : Int) :
    (image.plot colour x y).canvas = image.canvas := by
  rw [plot]
  split <;> rfl

/-- A plot shows at its pixel, and nowhere else on the image. -/
theorem read?_plot (h : onImage image.canvas a b) (colour : Colour) (x y : Int) :
    (image.plot colour x y).read? a b =
      if (a, b) = (x, y) then some colour else image.read? a b := by
  obtain ⟨hplace, hsize⟩ := offset_bounds h
  rw [plot]
  split
  next hon =>
    obtain ⟨hplace', -⟩ := offset_bounds hon
    have hsame : (image.offset x y).toNat = (image.offset a b).toNat ↔ (a, b) = (x, y) := by
      rw [← offset_inj h hon]
      omega
    show (if 0 ≤ image.offset a b then
      (image.pixels.setIfInBounds (image.offset x y).toNat colour)[(image.offset a b).toNat]?
      else none) = _
    rw [if_pos hplace, Array.getElem?_setIfInBounds, read?, if_pos hplace]
    split
    next heq => rw [if_pos (hsame.mp heq), heq, if_pos hsize]
    next hne => rw [if_neg fun heq => hne (hsame.mpr heq)]
  next hoff =>
    -- A pixel that is not on the image is none of those that are.
    rw [if_neg]
    rintro heq
    obtain ⟨rfl, rfl⟩ := Prod.mk.inj heq
    exact hoff h

/-- The image after some pixels were plotted. -/
def plotAll (image : Image) (colour : Colour) (pixels : List (Int × Int)) : Image :=
  pixels.foldl (fun image pixel => image.plot colour pixel.1 pixel.2) image

theorem plotAll_cons (image : Image) (colour : Colour) (pixel : Int × Int)
    (pixels : List (Int × Int)) : image.plotAll colour (pixel :: pixels) =
      (image.plot colour pixel.1 pixel.2).plotAll colour pixels := rfl

@[simp]
theorem plotAll_canvas (image : Image) (colour : Colour) (pixels : List (Int × Int)) :
    (image.plotAll colour pixels).canvas = image.canvas := by
  induction pixels generalizing image with
  | nil => rfl
  | cons pixel pixels ih => rw [plotAll_cons, ih, plot_canvas]

/-- Plots show at their pixels, and nowhere else on the image. -/
theorem read?_plotAll (h : onImage image.canvas a b) (colour : Colour)
    (pixels : List (Int × Int)) : (image.plotAll colour pixels).read? a b =
      if (a, b) ∈ pixels then some colour else image.read? a b := by
  -- All plots show the same colour, so it does not matter which one of a pixel is the last.
  induction pixels generalizing image with
  | nil => rw [if_neg List.not_mem_nil, plotAll, List.foldl_nil]
  | cons pixel pixels ih =>
    rw [plotAll_cons, ih (by rwa [plot_canvas]), read?_plot h]
    by_cases hmem : (a, b) ∈ pixels <;> by_cases heq : (a, b) = pixel <;> simp [hmem, heq]

/-! ## Bytes -/

/-- The pixel that a byte of an image belongs to. -/
def byteOwner (canvas : Canvas) (j : Nat) : Int × Int :=
  ((j / 3 % canvas.width : Nat), canvas.height - 1 - (j / 3 / canvas.width : Nat))

theorem length_toBytes (image : Image) :
    image.toBytes.length = image.canvas.width * image.canvas.height * 3 := by
  have hwidth : ∀ c ∈ image.pixels.toList, [c.red, c.green, c.blue].length = 3 := fun _ _ => rfl
  rw [toBytes, length_flatMap_const hwidth, Array.length_toList, image.size_eq, Nat.mul_comm]

/-- A byte is one of the components of the pixel that it belongs to. -/
theorem getElem?_toBytes (image : Image) (j : Nat) :
    image.toBytes[j]? = image.pixels[j / 3]?.bind fun c => [c.red, c.green, c.blue][j % 3]? := by
  have hwidth : ∀ c ∈ image.pixels.toList, [c.red, c.green, c.blue].length = 3 := fun _ _ => rfl
  have hbytes := getElem?_flatMap_const hwidth (j / 3) (Nat.mod_lt j (by decide))
  rw [Nat.div_add_mod] at hbytes
  rw [toBytes, hbytes, Array.getElem?_toList]

/-- The pixel of a byte is on the image, in the place that the byte counts in. -/
theorem byteOwner_bounds {j : Nat} (h : j < image.canvas.width * image.canvas.height * 3) :
    onImage image.canvas (byteOwner image.canvas j).1 (byteOwner image.canvas j).2 ∧
      image.offset (byteOwner image.canvas j).1 (byteOwner image.canvas j).2 = (j / 3 : Nat) := by
  have hplace : j / 3 < image.canvas.width * image.canvas.height := by omega
  have hwidth : 0 < image.canvas.width := Nat.pos_of_mul_pos_right (Nat.zero_lt_of_lt hplace)
  have hcolumn : j / 3 % image.canvas.width < image.canvas.width := Nat.mod_lt _ hwidth
  have hrow : j / 3 / image.canvas.width < image.canvas.height := Nat.div_lt_of_lt_mul hplace
  have hplaces := Nat.div_add_mod' (j / 3) image.canvas.width
  simp only [byteOwner, onImage_iff, offset, Int.sub_sub_self]
  generalize j / 3 % image.canvas.width = column at hcolumn hplaces ⊢
  generalize j / 3 / image.canvas.width = row at hrow hplaces ⊢
  refine ⟨by omega, ?_⟩
  exact_mod_cast hplaces

theorem read?_byteOwner (image : Image) {j : Nat}
    (h : j < image.canvas.width * image.canvas.height * 3) :
    image.read? (byteOwner image.canvas j).1 (byteOwner image.canvas j).2 =
      image.pixels[j / 3]? := by
  rw [read?, (byteOwner_bounds h).2, if_pos (Int.natCast_nonneg _), Int.toNat_natCast]

/-- A plot writes the three components of its colour in turn, from the first byte of its pixel on,
and no other byte. -/
theorem toBytes_plot (h : onImage image.canvas x y) (colour : Colour) :
    (image.plot colour x y).toBytes =
      ((image.toBytes.set (3 * (image.offset x y).toNat) colour.red).set
        (3 * (image.offset x y).toNat + 1) colour.green).set
          (3 * (image.offset x y).toNat + 2) colour.blue := by
  have hpixels : (image.plot colour x y).pixels =
      image.pixels.setIfInBounds (image.offset x y).toNat colour := by
    rw [plot, if_pos h]
  have hsize := (offset_bounds h).2
  have hlength : image.toBytes.length = 3 * image.pixels.size := by
    rw [length_toBytes, image.size_eq, Nat.mul_comm]
  generalize (image.offset x y).toNat = place at hpixels hsize ⊢
  apply List.ext_getElem?
  intro j
  rw [getElem?_toBytes, hpixels, Array.getElem?_setIfInBounds]
  simp only [List.getElem?_set, List.length_set, hlength]
  by_cases hplace : place = j / 3
  · -- The byte is one of the three: which one, its remainder tells.
    rw [if_pos hplace, if_pos hsize, Option.bind_some]
    obtain h | h | h : j % 3 = 0 ∨ j % 3 = 1 ∨ j % 3 = 2 := by omega
    · obtain rfl : j = 3 * place := by omega
      rw [if_neg (by omega), if_neg (by omega), if_pos rfl, if_pos (by omega), h]
      rfl
    · obtain rfl : j = 3 * place + 1 := by omega
      rw [if_neg (by omega), if_pos rfl, if_pos (by omega), h]
      rfl
    · obtain rfl : j = 3 * place + 2 := by omega
      rw [if_pos rfl, if_pos (by omega), h]
      rfl
  · rw [if_neg hplace, if_neg (by omega), if_neg (by omega), if_neg (by omega), getElem?_toBytes]

/-- Every byte stays as it is, unless it is one of a pixel that is plotted and on the image. -/
theorem getElem?_toBytes_plotAll {pixels : List (Int × Int)} {j : Nat}
    (h : ∀ pixel ∈ pixels, onImage image.canvas pixel.1 pixel.2 →
      byteOwner image.canvas j ≠ pixel) (colour : Colour) :
    (image.plotAll colour pixels).toBytes[j]? = image.toBytes[j]? := by
  rcases Nat.lt_or_ge j (image.canvas.width * image.canvas.height * 3) with hlt | hge
  · have hon := (byteOwner_bounds hlt).1
    have hread := read?_plotAll hon colour pixels
    have hplotted := read?_byteOwner (image.plotAll colour pixels) (j := j)
    rw [plotAll_canvas] at hplotted
    rw [if_neg fun hmem => h _ hmem hon rfl, read?_byteOwner image hlt, hplotted hlt] at hread
    rw [getElem?_toBytes, getElem?_toBytes, hread]
  · -- Behind the last byte there is none, before the plots or after them.
    rw [List.getElem?_eq_none, List.getElem?_eq_none]
    · rwa [length_toBytes]
    · rwa [length_toBytes, plotAll_canvas]

end Flipbook.Raster.Image
