import Flipbook.Script.Statement

/-!
# Compiling scripts

A script is compiled statement by statement into a draft, and the draft, when the script ends, into
a timeline. The first problem ends the compilation. Whether frame ranges exceed the number of
frames is decided at the end, since the number of frames may be given last.
-/

namespace Flipbook.Script

variable {α : Type} [Scalar α]

/-- What compiling depends on, besides the script. -/
structure Options where
  /-- Whether a drawing exists; without it, none is looked for. -/
  sourceExists : Option (String → Bool) := none
  /-- A frame rate that takes the place of the one in the script. -/
  frameRate : Option Binary64 := none

/-- A value with the line that sets it. -/
structure Setting (β : Type) where
  value : β
  line : Nat
  deriving DecidableEq, Repr

/-- What the statements so far say. -/
structure Draft (α : Type) where
  frames : Option (Setting Nat) := none
  /-- The frame rate. -/
  fps : Option (Setting Binary64) := none
  canvas : Option (Setting Canvas) := none
  elements : List (Element α) := []
  moves : List (Move α) := []
  lines : List (LineMark α) := []
  /-- The frame ranges, with the lines that they stand on. -/
  ranges : List (FrameRange × Nat) := []

/-- The size of the canvas of a script that names none. -/
def defaultCanvas : Canvas :=
  ⟨1024, 780⟩

/-- The frame rate of a script that names none. -/
def defaultFrameRate : Binary64 := 25

/-- Gives a header statement its value, unless it has one. -/
def Setting.set {β : Type} (header : Header) (old : Option (Setting β)) (value : β) (line : Nat) :
    Except Problem (Setting β) :=
  match old with
  | some first => .error (.duplicateHeader header first.line)
  | none => .ok ⟨value, line⟩

namespace Draft

/-- The line on which an element is declared. -/
def declared (draft : Draft α) (id : String) : Option Nat :=
  (draft.elements.find? fun e => e.id = id).map Element.line

/-- Notes a frame range, if there is one. -/
def note (draft : Draft α) (range : Option FrameRange) (line : Nat) : List (FrameRange × Nat) :=
  draft.ranges ++ range.toList.map fun r => (r, line)

/-- Adds a statement of a line. -/
def add (draft : Draft α) (line : Nat) : Statement α → Except Problem (Draft α)
  | .frames count => do
    let frames ← Setting.set .frames draft.frames count line
    .ok { draft with frames := some frames }
  | .fps rate => do
    let fps ← Setting.set .fps draft.fps rate line
    .ok { draft with fps := some fps }
  | .canvas size => do
    let canvas ← Setting.set .canvas draft.canvas size line
    .ok { draft with canvas := some canvas }
  | .element e =>
    .ok { draft with elements := draft.elements ++ [e], ranges := draft.note e.visible line }
  | .move elementId range ops =>
    .ok { draft with
          moves := draft.moves ++ [{ elementId, range, ops, order := draft.moves.length, line }]
          ranges := draft.note (some range) line }
  | .line mark =>
    .ok { draft with lines := draft.lines ++ [mark], ranges := draft.note mark.range line }

/-- Reads the tokens of a line and adds its statement. An empty line adds nothing. -/
def addLine (sourceExists : String → Bool) (draft : Draft α) (line : Nat) :
    List String → Except Problem (Draft α)
  | [] => .ok draft
  | tokens => do
    let s ← statement ⟨line, draft.declared, sourceExists⟩ tokens
    draft.add line s

/-- The timeline of a draft. -/
def timeline (draft : Draft α) (frameRate : Option Binary64) : Except Error (Timeline α) :=
  match draft.frames with
  | none => .error (.script .noFrames none)
  | some frames =>
    match draft.ranges.find? fun r => frames.value < r.1.last with
    | some (range, line) =>
      .error (.script (.rangeBeyondEnd range.last frames.value) (some line))
    | none =>
      let rate := frameRate.getD ((draft.fps.map Setting.value).getD defaultFrameRate)
      if 0 < rate then
        .ok { elements := draft.elements, moves := draft.moves, lines := draft.lines,
              totalFrames := frames.value, frameRate := rate,
              canvas := (draft.canvas.map Setting.value).getD defaultCanvas }
      else .error (.script .fpsNotPositive none)

/-- Adds lines, counting them from `line` on. -/
def addLines (sourceExists : String → Bool) (draft : Draft α) (line : Nat) :
    List (List String) → Except Error (Draft α)
  | [] => .ok draft
  | tokens :: rest =>
    match draft.addLine sourceExists line tokens with
    | .error problem => .error (.script problem (some line))
    | .ok draft => draft.addLines sourceExists (line + 1) rest

end Draft

/-- The timeline that a script describes. -/
def compile (options : Options) (text : String) : Except Error (Timeline α) := do
  let sourceExists := options.sourceExists.getD fun _ => true
  let draft ← Draft.addLines sourceExists ({} : Draft α) 1 (scriptLines text)
  draft.timeline options.frameRate

end Flipbook.Script
