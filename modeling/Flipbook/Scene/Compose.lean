import Flipbook.Scene.Tween

/-!
# Scenes

The scene of a frame lists what is to be seen in it: first the visible elements with their poses,
then the visible lines, both as declared. A line that belongs to an element is seen only together
with it.
-/

namespace Flipbook

/-- Something to be drawn. -/
inductive Drawable (α : Type) where
  /-- A drawing, with its pose and the map of the pose. -/
  | element (id source : String) (fit : Bool) (pose : Pose α) (transform : Matrix α)
  /-- A line of the timeline, by its position among the lines and by its ends. -/
  | line (index : Nat) (start finish : Point α)
  deriving DecidableEq, Repr

/-- The contents of a frame. -/
structure Scene (α : Type) where
  frame : Nat
  /-- When the frame is shown, in seconds. -/
  time : α
  /-- What is to be drawn, in drawing order. -/
  drawables : List (Drawable α)
  deriving DecidableEq, Repr

section Visibility

variable {α : Type} [Scalar α]

open Scalar

/-- Whether a blink is in the visible part of its period. -/
def Blink.isOn (blink : Blink α) (moment : α) : Bool :=
  decide (rem (moment + blink.phase) (blink.on + blink.off) < blink.on)

/-- Whether something is visible that has a stretch of time and a blink. -/
def isVisible (span : Option (Span α)) (blink : Option (Blink α)) (moment : α) : Bool :=
  Span.allows span moment &&
    match blink with
    | none => true
    | some b => b.isOn moment

/-- Whether an element is visible. -/
def Element.visibleAt (element : Element α) (moment : α) : Bool :=
  isVisible (element.visible.map FrameRange.span) element.blink moment

/-- Whether a line is visible, given the names of the elements that are. -/
def LineMark.visibleAt (line : LineMark α) (shown : List String) (moment : α) : Bool :=
  Span.allows (line.range.map FrameRange.span) moment &&
    match line.elementId with
    | none => true
    | some id => shown.contains id

end Visibility

namespace Timeline

variable {α : Type} [Trig α]

open Scalar

/-- The elements that are visible in a frame. -/
def shown (timeline : Timeline α) (frame : Nat) : List (Element α) :=
  timeline.elements.filter fun e => e.visibleAt (ofNat frame)

/-- An element as it appears in a frame. -/
def drawElement (timeline : Timeline α) (frame : Nat) (e : Element α) : Drawable α :=
  let pose := e.poseAt timeline.moves frame
  .element e.id e.source e.fit pose (pose.matrix timeline.canvas.extent)

/-- The lines that are visible in a frame. -/
def drawLines (timeline : Timeline α) (frame : Nat) : List (Drawable α) :=
  let ids := (timeline.shown frame).map Element.id
  timeline.lines.zipIdx.filterMap fun (line, index) =>
    if line.visibleAt ids (ofNat frame) then some (.line index line.start line.finish) else none

/-- The scene of a frame. -/
def scene (timeline : Timeline α) (frame : Nat) : Scene α where
  frame := frame
  time := ofNat frame / ofBinary64 timeline.frameRate
  drawables := (timeline.shown frame).map (timeline.drawElement frame) ++ timeline.drawLines frame

/-- The scene of a frame that is asked for by number; only the frames of the timeline have one. -/
def sceneAt (timeline : Timeline α) (frame : Binary64) : Except Error (Scene α) :=
  match frame.toNat? with
  | some n =>
    if n < timeline.totalFrames then .ok (timeline.scene n)
    else .error (.frameOutside frame (timeline.totalFrames - 1))
  | none => .error (.frameOutside frame (timeline.totalFrames - 1))

end Timeline

end Flipbook
