import Flipbook.Geometry.Placement

/-!
# Timelines

What a script says, once it is understood: elements, which show a drawing; moves, which change the
pose of an element over a range of frames; and lines between two points of the canvas. Each record
keeps the line of the script that it comes from.
-/

namespace Flipbook

/-- A run of frames, both ends included. -/
structure FrameRange where
  first : Nat
  last : Nat
  deriving DecidableEq, Repr

/-- The parts of a pose that moves change independently of each other. -/
inductive Channel where
  | translate | rotate | scale
  deriving DecidableEq, Repr

/-- The keyword of a channel in scripts. -/
def Channel.keyword : Channel → String
  | translate => "translate"
  | rotate => "rotate"
  | scale => "scale"

/-- A change of one channel. -/
inductive Transform (α : Type) where
  | translate (dx dy : α)
  /-- A turn in degrees, anticlockwise. -/
  | rotate (degrees : α)
  /-- A multiplication of the scale factors. -/
  | scale (sx sy : α)
  deriving DecidableEq, Repr

/-- The channel that a transform changes. -/
def Transform.channel {α : Type} : Transform α → Channel
  | translate .. => .translate
  | rotate .. => .rotate
  | scale .. => .scale

/-- A periodic visibility: `on` frames visible, then `off` frames hidden. -/
structure Blink (α : Type) where
  /-- The visible part of a period. -/
  on : α
  /-- The hidden part of a period. -/
  off : α
  /-- How far into its period the blink is at frame zero. -/
  phase : α
  deriving DecidableEq, Repr

/-- A drawing that the animation shows. -/
structure Element (α : Type) where
  /-- The name that moves and lines refer to. -/
  id : String
  /-- The name of the drawing. -/
  source : String
  /-- The pose before any move. -/
  pose : Pose α
  /-- Whether the drawing is stretched to the canvas before it is posed. -/
  fit : Bool
  /-- The frames in which it may be seen; all of them if absent. -/
  visible : Option FrameRange
  blink : Option (Blink α)
  line : Nat
  deriving DecidableEq, Repr

/-- A gradual change of the pose of an element. -/
structure Move (α : Type) where
  elementId : String
  /-- The frames over which it moves. -/
  range : FrameRange
  /-- The changes, at most one per channel. -/
  ops : List (Transform α)
  /-- The position of the move among all moves. -/
  order : Nat
  line : Nat
  deriving DecidableEq, Repr

/-- A straight line across the canvas. -/
structure LineMark (α : Type) where
  /-- One end. -/
  start : Point α
  /-- The other end. -/
  finish : Point α
  /-- The frames in which it is drawn; all of them if absent. -/
  range : Option FrameRange
  /-- The element with which it appears and disappears. -/
  elementId : Option String
  line : Nat
  deriving DecidableEq, Repr

/-- An animation, as its script describes it. -/
structure Timeline (α : Type) where
  elements : List (Element α)
  moves : List (Move α)
  lines : List (LineMark α)
  totalFrames : Nat
  /-- The number of frames per second. -/
  frameRate : Binary64
  canvas : Canvas
  deriving DecidableEq, Repr

end Flipbook
