import Flipbook.Device.Tape
import Flipbook.Device.Tek4010
import Flipbook.Raster.Draw
import Flipbook.Raster.Tga

/-!
# Devices

A device profile says how a frame is stored for a device, and how the files are named.
-/

namespace Flipbook

/-- The devices for which frames can be stored. -/
inductive DeviceProfile where
  /-- The 4010 terminal. -/
  | tek4010
  /-- The 4050 series with R12 graphics, which reads from a flash drive. -/
  | tek4050r12
  /-- No terminal, but image files. -/
  | tga
  deriving DecidableEq, Repr

namespace DeviceProfile

/-- All profiles. -/
def all : List DeviceProfile :=
  [tek4010, tek4050r12, tga]

/-- The name of a profile. -/
def name : DeviceProfile → String
  | tek4010 => "tek4010"
  | tek4050r12 => "tek4050r12"
  | tga => "tga"

/-- The profile of a name. -/
def ofName? (name : String) : Option DeviceProfile :=
  all.find? fun p => p.name = name

/-- How the files of a device are named. -/
def naming : DeviceProfile → Naming
  | tek4050r12 => .flashDrive
  | _ => .sequence

/-- Whether archives for a device can begin with a player program. -/
def supportsPlayer : DeviceProfile → Bool
  | tek4050r12 => true
  | _ => false

/-- The extension of the files. -/
def extension : DeviceProfile → String
  | tek4010 => "tek"
  | tek4050r12 => ""
  | tga => "tga"

/-- The contents of the file of a frame. -/
def encode {α : Type} [Scalar α] (profile : DeviceProfile) (canvas : Canvas)
    (strokes : List (Stroke α)) : Except SourceError (List UInt8) :=
  match profile with
  | tek4010 => Device.tek4010 strokes
  | tek4050r12 => Device.tapeRecords <$> Device.r12 strokes
  | tga => Raster.Image.toTga <$> Raster.rasterize canvas Raster.Colour.phosphor strokes

/-- The label of a frame. -/
def frameLabel (frame : Binary64) : String :=
  "DATA Frame " ++ frame.text

/-- The file of a frame. -/
def emit {α : Type} [Scalar α] (profile : DeviceProfile) (canvas : Canvas) (frame : Binary64)
    (strokes : List (Stroke α)) : Except SourceError FrameFile := do
  let data ← profile.encode canvas strokes
  .ok { type := "BINARY", label := frameLabel frame, extension := profile.extension, data }

end DeviceProfile

end Flipbook
