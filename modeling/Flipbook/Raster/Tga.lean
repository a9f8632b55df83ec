import Flipbook.Raster.Image

/-!
# TGA files

An image as an uncompressed TGA file with 32 bits per pixel: a header of 18 bytes, then blue, green,
red and an opaque alpha for each pixel, row by row from the top.
-/

namespace Flipbook.Raster

/-- The two bytes of a 16-bit number, the lower one first. -/
def littleEndian16 (n : Nat) : List UInt8 :=
  [n.toUInt8, (n / 256).toUInt8]

/-- The header for an image of a size: uncompressed true colour, 32 bits per pixel, rows from the
top. -/
def tgaHeader (canvas : Canvas) : List UInt8 :=
  [0, 0, 2, 0, 0, 0, 0, 0, 0, 0, 0, 0] ++ littleEndian16 canvas.width ++
    littleEndian16 canvas.height ++ [32, 0x20]

/-- The bytes of a pixel. -/
def tgaPixel (colour : Colour) : List UInt8 :=
  [colour.blue, colour.green, colour.red, 0xFF]

/-- The TGA file of an image. -/
def Image.toTga (image : Image) : List UInt8 :=
  tgaHeader image.canvas ++ image.pixels.toList.flatMap tgaPixel

end Flipbook.Raster
