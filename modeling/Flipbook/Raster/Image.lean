import Flipbook.Geometry.Point

/-!
# Images

An image is a grid of colours, with the top row first. Pixels are addressed like points of the
canvas: the ordinate runs upwards from the bottom row.
-/

namespace Flipbook.Raster

/-- A colour with eight bits per component. -/
structure Colour where
  red : UInt8
  green : UInt8
  blue : UInt8
  deriving DecidableEq, Repr, Inhabited

/-- The colour of an unlit screen. -/
def Colour.black : Colour :=
  ⟨0, 0, 0⟩

/-- The green of a lit phosphor screen. -/
def Colour.phosphor : Colour :=
  ⟨0, 255, 0⟩

/-- An image of a given size. -/
structure Image where
  /-- The size in pixels. -/
  canvas : Canvas
  /-- The colours, row by row from the top. -/
  pixels : Array Colour
  /-- There is one colour per pixel. -/
  size_eq : pixels.size = canvas.width * canvas.height
  deriving DecidableEq

namespace Image

/-- The black image. -/
def blank (canvas : Canvas) : Image where
  canvas := canvas
  pixels := Array.replicate (canvas.width * canvas.height) Colour.black
  size_eq := by simp

/-- The place of a pixel in row order; a column beyond the right border is the start of the row
below. -/
def offset (image : Image) (x y : Int) : Int :=
  (image.canvas.height - 1 - y) * image.canvas.width + x

/-- Whether a pixel lies on the image. -/
def onImage (canvas : Canvas) (x y : Int) : Bool :=
  decide (0 ≤ x) && decide (x < canvas.width) && decide (0 ≤ y) && decide (y < canvas.height)

/-- Colours a pixel; one that is not on the image is dropped. -/
def plot (image : Image) (colour : Colour) (x y : Int) : Image :=
  if onImage image.canvas x y then
    { image with
      pixels := image.pixels.setIfInBounds (image.offset x y).toNat colour
      size_eq := by simp [image.size_eq] }
  else image

/-- The colour at the place of a pixel in row order, if there is one. -/
def read? (image : Image) (x y : Int) : Option Colour :=
  if 0 ≤ image.offset x y then image.pixels[(image.offset x y).toNat]? else none

/-- The image whose pixels have the given components: red, green and blue in turn, row by row from
the top. Components that are missing are zero. -/
def ofBytes (canvas : Canvas) (bytes : Array UInt8) : Image where
  canvas := canvas
  pixels := Array.ofFn (n := canvas.width * canvas.height) fun i =>
    ⟨bytes.getD (3 * i) 0, bytes.getD (3 * i + 1) 0, bytes.getD (3 * i + 2) 0⟩
  size_eq := by simp

/-- The components of the pixels, row by row from the top. -/
def toBytes (image : Image) : List UInt8 :=
  image.pixels.toList.flatMap fun c => [c.red, c.green, c.blue]

end Image

end Flipbook.Raster
