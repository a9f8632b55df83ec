import Flipbook.Main
import Flipbook.Archive.Slot
import Flipbook.Proofs.Schedule.Buffer
import Flipbook.Proofs.Schedule.Session
import Flipbook.Proofs.Schedule.Control
import Flipbook.Proofs.Schedule.Frames
import Flipbook.Proofs.Schedule.Writing
import Flipbook.Proofs.Schedule.Order
import Flipbook.Proofs.Schedule.Failure
import Flipbook.Proofs.Schedule.Outcome
import Flipbook.Proofs.Archive.Characters
import Flipbook.Proofs.Archive.Markers
import Flipbook.Proofs.Archive.Names
import Flipbook.Proofs.Archive.Packing
import Flipbook.Proofs.Archive.Program
import Flipbook.Proofs.Archive.Rechunk
import Flipbook.Proofs.Script.WellFormed
import Flipbook.Proofs.Script.Compile
import Flipbook.Proofs.Script.Language
import Flipbook.Proofs.Archive.Chunks
import Flipbook.Proofs.Scene.Poses
import Flipbook.Proofs.Device.Tape
import Flipbook.Proofs.Archive.Suffix
import Flipbook.Proofs.Number.Whole
import Flipbook.Proofs.Archive.Layout
import Flipbook.Proofs.Archive.Split
import Flipbook.Proofs.Archive.Writer
import Flipbook.Proofs.Archive.Delivery
import Flipbook.Proofs.Archive.Runs
import Flipbook.Proofs.Archive.Played
import Flipbook.Proofs.Schedule.Effort
import Flipbook.Proofs.Output.Export
import Flipbook.Proofs.Output.Perform
import Flipbook.Proofs.Output.Animate
import Flipbook.Proofs.Output.Archives
import Flipbook.Proofs.Device.Vectors
import Flipbook.Proofs.Scene.Begun
import Flipbook.Proofs.Scene.Progress
import Flipbook.Proofs.Archive.Kept
import Flipbook.Proofs.Scene.Insertion
import Flipbook.Proofs.Scene.Sequence
import Flipbook.Proofs.Device.Records
import Flipbook.Proofs.Raster.Clip
import Flipbook.Proofs.Raster.Line
import Flipbook.Proofs.Raster.Image
import Flipbook.Proofs.Raster.Draw
import Flipbook.Proofs.Geometry.Bounds
import Flipbook.Proofs.Geometry.Fit
import Flipbook.Proofs.Number.Quotient
import Flipbook.Proofs.Archive.Letters
import Flipbook.Proofs.Archive.Fields
import Flipbook.Proofs.Number.Shortest
import Flipbook.Proofs.Archive.Listing
import Flipbook.Proofs.Geometry.Affine
import Flipbook.Proofs.Geometry.Narrow
import Flipbook.Proofs.Number.Extended
import Flipbook.Proofs.Scene.Placing
import Flipbook.Proofs.Plot.Plotter
import Flipbook.Proofs.Plot.Reset
import Flipbook.Proofs.Plot.Grouping
import Flipbook.Proofs.Output.Refusal
import Flipbook.Proofs.Number.Machine
import Flipbook.Proofs.Scene.Visibility
import Flipbook.Proofs.Script.Relocation
import Flipbook.Proofs.Script.Layout
import Flipbook.Proofs.Script.Headers
import Flipbook.Proofs.Raster.Tga
import Flipbook.Proofs.Raster.Union
import Flipbook.Proofs.Output.VideoHistory
import Flipbook.Proofs.Output.VideoAnswers
import Flipbook.Proofs.Scene.Loading
import Flipbook.Proofs.Number.Real
import Flipbook.Proofs.Plot.Arc
import Flipbook.Proofs.Command.Settings
import Flipbook.Proofs.Command.Groups
import Flipbook.Proofs.Command.Accepted
import Flipbook.Proofs.Command.Checks
import Flipbook.Proofs.Number.Stalling
import Flipbook.Proofs.Archive.Counting
import Flipbook.Proofs.Schedule.Turns
