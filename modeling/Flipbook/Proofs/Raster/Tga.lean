import Flipbook.Proofs.Raster.Image
import Flipbook.Raster.Tga
import Flipbook.Script.Compile

/-!
# What a TGA file says of its image

A reader who knows the format and nothing else finds a size in a file, and the pixels behind it. The
format has sixteen bits for each dimension, and an image of any size is written. Of a dimension that
does not fit, the file shows the lower sixteen bits only: it looks like the file of a smaller image,
with bytes left over behind the last pixel. So a file describes its image just if both dimensions
fit.

## Main definitions

* `readTga`: what a file shows, and the bytes that are left over.
* `Describes`: a picture has the size and the colours of a frame.

## Main results

* `readPixels_flatMap`: the pixels are read as they were written;
* `readTga_toTga`: what the file of any image shows;
* `describes_toTga_iff`: which files describe their frame.
-/

namespace Flipbook.Raster

/-! ## Reading -/

/-- What a file shows: a size, and colours with their opacity, row by row from the top. -/
structure Picture where
  width : Nat
  height : Nat
  /-- Each colour, with its alpha. -/
  pixels : List (Colour × UInt8)
  deriving DecidableEq, Repr

/-- The number in two bytes from a place on, the lower one first. -/
def word16? (bytes : List UInt8) (place : Nat) : Option Nat := do
  let low ← bytes[place]?
  let high ← bytes[place + 1]?
  some (low.toNat + 256 * high.toNat)

/-- Reads so many pixels of four bytes each: blue, green, red and alpha. -/
def readPixels : Nat → List UInt8 → Option (List (Colour × UInt8) × List UInt8)
  | 0, bytes => some ([], bytes)
  | n + 1, blue :: green :: red :: alpha :: bytes =>
    (readPixels n bytes).map fun (pixels, rest) => ((⟨red, green, blue⟩, alpha) :: pixels, rest)
  | _ + 1, _ => none

/-- Reads an uncompressed file of 32 bits per pixel with the top row first. It has no identification
and no table of colours, so that the pixels begin behind the 18 bytes of the header. -/
def readTga (bytes : List UInt8) : Option (Picture × List UInt8) :=
  if bytes.take 3 = [0, 0, 2] ∧ bytes[16]? = some 32 ∧
      bytes[17]?.any (fun descriptor => descriptor &&& 0x30 = 0x20) then do
    let width ← word16? bytes 12
    let height ← word16? bytes 14
    let (pixels, rest) ← readPixels (width * height) (bytes.drop 18)
    some (⟨width, height, pixels⟩, rest)
  else none

/-! ## What is read of a file -/

/-- The pixel of a colour that nothing shines through. -/
def solidPixel (colour : Colour) : Colour × UInt8 :=
  (colour, 255)

/-- As many pixels as are asked for are read, and the bytes of the others are left over. -/
theorem readPixels_flatMap {n : Nat} {colours : List Colour} (h : n ≤ colours.length) :
    readPixels n (colours.flatMap tgaPixel) =
      some ((colours.take n).map solidPixel, (colours.drop n).flatMap tgaPixel) := by
  induction n generalizing colours with
  | zero => rfl
  | succ n ih =>
    match colours with
    | colour :: colours =>
      have hrest := ih (Nat.le_of_succ_le_succ h)
      rw [List.flatMap_cons]
      show (readPixels n (colours.flatMap tgaPixel)).map _ = _
      rw [hrest]
      rfl

/-- Two bytes hold the lower sixteen bits of a number. -/
theorem toNat_bytes (n : Nat) :
    n.toUInt8.toNat + 256 * (n / 256).toUInt8.toNat = n % 65536 := by
  rw [Nat.toUInt8_eq, Nat.toUInt8_eq, UInt8.toNat_ofNat', UInt8.toNat_ofNat']
  show n % 256 + 256 * (n / 256 % 256) = n % 65536
  omega

/-- A header shows the lower sixteen bits of each dimension, and is followed by the pixels. -/
theorem readTga_tgaHeader (canvas : Canvas) (bytes : List UInt8) :
    readTga (tgaHeader canvas ++ bytes) =
      (readPixels (canvas.width % 65536 * (canvas.height % 65536)) bytes).map fun (pixels, rest) =>
        (⟨canvas.width % 65536, canvas.height % 65536, pixels⟩, rest) := by
  -- Both dimensions are found in the header, whatever follows.
  have hwidth : word16? (tgaHeader canvas ++ bytes) 12 = some (canvas.width % 65536) :=
    congrArg some (toNat_bytes canvas.width)
  have hheight : word16? (tgaHeader canvas ++ bytes) 14 = some (canvas.height % 65536) :=
    congrArg some (toNat_bytes canvas.height)
  have hpixels : (tgaHeader canvas ++ bytes).drop 18 = bytes := rfl
  rw [readTga, if_pos ⟨rfl, rfl, rfl⟩, hwidth, hheight, hpixels]
  simp only [Option.bind_eq_bind, Option.bind_some]
  cases readPixels (canvas.width % 65536 * (canvas.height % 65536)) bytes <;> rfl

/-- The number of pixels that the lower bits of the dimensions make up. -/
def shownPixels (canvas : Canvas) : Nat :=
  canvas.width % 65536 * (canvas.height % 65536)

/-- Every file is read. It shows the pixels that the lower bits of the dimensions make room for,
and the bytes of the other ones are left over. -/
theorem readTga_toTga (image : Image) :
    readTga image.toTga =
      some (⟨image.canvas.width % 65536, image.canvas.height % 65536,
        (image.pixels.toList.take (shownPixels image.canvas)).map solidPixel⟩,
        (image.pixels.toList.drop (shownPixels image.canvas)).flatMap tgaPixel) := by
  have hshown : shownPixels image.canvas ≤ image.pixels.toList.length := by
    rw [Array.length_toList, image.size_eq]
    exact Nat.mul_le_mul (Nat.mod_le _ _) (Nat.mod_le _ _)
  rw [Image.toTga, readTga_tgaHeader, ← shownPixels, readPixels_flatMap hshown]
  rfl

/-! ## Which files describe their frame -/

/-- A picture has the size of a canvas, and in each place the components of a frame with red, green
and blue in turn, with the greatest alpha. -/
structure Describes (picture : Picture) (canvas : Canvas) (frame : Array UInt8) : Prop where
  width_eq : picture.width = canvas.width
  height_eq : picture.height = canvas.height
  /-- There is one pixel for each place. -/
  length_eq : picture.pixels.length = canvas.width * canvas.height
  /-- Components that a frame does not have count as zero. -/
  pixels_eq : ∀ i < canvas.width * canvas.height, picture.pixels[i]? =
    some (⟨frame.getD (3 * i) 0, frame.getD (3 * i + 1) 0, frame.getD (3 * i + 2) 0⟩, 255)

/-- The file of a frame, which has three bytes for each pixel of the canvas, describes the frame, with
nothing left over, just if each dimension of the canvas fits in sixteen bits. -/
theorem describes_toTga_iff (canvas : Canvas) (frame : Array UInt8) :
    (∃ picture, readTga (Image.ofBytes canvas frame).toTga = some (picture, []) ∧
      Describes picture canvas frame) ↔ canvas.width < 65536 ∧ canvas.height < 65536 := by
  have hread := readTga_toTga (Image.ofBytes canvas frame)
  have hcanvas : (Image.ofBytes canvas frame).canvas = canvas := rfl
  rw [hcanvas] at hread
  constructor
  · rintro ⟨picture, hpicture, hdescribes⟩
    obtain ⟨rfl, -⟩ := Prod.mk.inj (Option.some.inj (hpicture.symm.trans hread))
    -- A dimension that is shown as it is has no upper bits.
    have hwidth : canvas.width % 65536 = canvas.width := hdescribes.width_eq
    have hheight : canvas.height % 65536 = canvas.height := hdescribes.height_eq
    omega
  · rintro ⟨hwidth, hheight⟩
    have hlength : (Image.ofBytes canvas frame).pixels.toList.length =
        canvas.width * canvas.height := by
      rw [Array.length_toList, Image.size_eq, hcanvas]
    -- All pixels are shown, and those left over are none.
    rw [shownPixels, Nat.mod_eq_of_lt hwidth, Nat.mod_eq_of_lt hheight, ← hlength, List.take_length,
      List.drop_length, List.flatMap_nil] at hread
    refine ⟨_, hread, rfl, rfl, by rw [List.length_map, hlength], fun i hi => ?_⟩
    rw [List.getElem?_map, Array.getElem?_toList, Image.ofBytes, Array.getElem?_ofFn, dif_pos hi]
    rfl

/-- A black frame of `2 ^ 16` columns and one row. -/
def wideFrame : Array UInt8 :=
  Array.replicate (65536 * 1 * 3) 0

/-- A script may ask for a canvas of `2 ^ 16` columns. The file of a frame on it shows none of them,
and all pixels are left over. -/
theorem not_describes_wideFrame :
    ((Script.compile (α := Float) {} "frames 1\ncanvas 65536 1").toOption.map (·.canvas) =
      some ⟨65536, 1⟩) ∧
    wideFrame.size = 65536 * 1 * 3 ∧
    (∃ rest, readTga (Image.ofBytes ⟨65536, 1⟩ wideFrame).toTga = some (⟨0, 1, []⟩, rest) ∧
      rest.length = 4 * 65536) ∧
    ¬ ∃ picture, readTga (Image.ofBytes ⟨65536, 1⟩ wideFrame).toTga = some (picture, []) ∧
      Describes picture ⟨65536, 1⟩ wideFrame := by
  have hread := readTga_toTga (Image.ofBytes ⟨65536, 1⟩ wideFrame)
  refine ⟨by decide +kernel, Array.size_replicate, ⟨_, hread, ?_⟩, ?_⟩
  · have hwidth : ∀ c ∈ (Image.ofBytes ⟨65536, 1⟩ wideFrame).pixels.toList,
        (tgaPixel c).length = 4 := fun _ _ => rfl
    show (((Image.ofBytes ⟨65536, 1⟩ wideFrame).pixels.toList.drop 0).flatMap tgaPixel).length = _
    rw [List.drop_zero, length_flatMap_const hwidth, Array.length_toList, Image.size_eq]
    rfl
  · rintro ⟨picture, hpicture, hdescribes⟩
    obtain ⟨rfl, -⟩ := Prod.mk.inj (Option.some.inj (hpicture.symm.trans hread))
    exact absurd hdescribes.width_eq (by decide)

end Flipbook.Raster
