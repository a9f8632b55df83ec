import Flipbook.Script.Token

/-!
# Statements of a script

Each line that is not empty is one statement, which its first token names. Reading a statement
checks its form, its values and the names that it uses, from left to right.

```text
frames <count>
fps <rate>
canvas <width> <height>
element <id> <source> [translate x y] [rotate degrees] [scale s [sy]] [raw]
        [visible a..b] [blink on off [phase]]
move <id> a..b <transform>...
line [a..b] x1 y1 x2 y2 [with <id>]
```
-/

namespace Flipbook.Script

variable {α : Type} [Scalar α]

open Scalar

/-- What a statement may refer to. -/
structure Scope where
  line : Nat
  /-- The line on which a name was declared. -/
  declared : String → Option Nat
  /-- Whether a drawing of a name exists. -/
  sourceExists : String → Bool

/-- A statement. -/
inductive Statement (α : Type) where
  | frames (count : Nat)
  | fps (rate : Binary64)
  | canvas (size : Canvas)
  | element (element : Element α)
  | move (elementId : String) (range : FrameRange) (ops : List (Transform α))
  | line (mark : LineMark α)

/-- Reads what follows the keyword of a transform; `none` if it is no such keyword. A single scale
factor holds for both axes. -/
def transform? (keyword : String) (tokens : List String) :
    Option (Except Problem (Transform α × List String)) :=
  match keyword with
  | "translate" => some do
    let (dx, tokens) ← number .translateX tokens
    let (dy, tokens) ← number .translateY tokens
    .ok (.translate dx dy, tokens)
  | "rotate" => some do
    let (degrees, tokens) ← number .rotateDegrees tokens
    .ok (.rotate degrees, tokens)
  | "scale" => some do
    let (sx, tokens) ← number .scaleFactor tokens
    if startsWithNumber tokens then
      let (sy, tokens) ← number .scaleYFactor tokens
      .ok (.scale sx sy, tokens)
    else .ok (.scale sx sx, tokens)
  | _ => none

/-- Reads the phase of a blink; without one it starts at its beginning. -/
def blinkPhase (tokens : List String) : Except Problem (α × List String) :=
  if startsWithNumber tokens then number .blinkPhase tokens else .ok (ofInt 0, tokens)

/-- Reads a blink. -/
def blink (tokens : List String) : Except Problem (Blink α × List String) := do
  let (on, tokens) ← number .blinkOn tokens
  let (off, tokens) ← number .blinkOff tokens
  let (phase, tokens) ← blinkPhase tokens
  if ¬ ofInt 0 < on then .error .blinkOnNotPositive
  else if ¬ (ofInt 0 ≤ off ∧ ofInt 0 ≤ phase) then .error .blinkNegative
  else .ok (⟨on, off, phase⟩, tokens)

/-- The pose that a transform in a declaration sets. -/
def placed (pose : Pose α) : Transform α → Pose α
  | .translate dx dy => { pose with x := dx, y := dy }
  | .rotate degrees => { pose with rotation := degrees }
  | .scale sx sy => { pose with scaleX := sx, scaleY := sy }

/-- Reads what follows the keyword of an option, and applies it to the element. -/
def elementOption (element : Element α) (keyword : String) (tokens : List String) :
    Except Problem (Element α × List String) :=
  match transform? keyword tokens with
  | some reading => do
    let (op, tokens) ← reading
    .ok ({ element with pose := placed element.pose op }, tokens)
  | none =>
    match keyword with
    | "raw" => .ok ({ element with fit := false }, tokens)
    | "visible" => do
      let (visible, tokens) ← range .visible tokens
      .ok ({ element with visible := some visible }, tokens)
    | "blink" => do
      let (period, tokens) ← blink tokens
      .ok ({ element with blink := some period }, tokens)
    | _ => .error (.unknownOption keyword)

/-- Reads options up to the end of the line, each at most once. Every option takes at least its
keyword, so the number of tokens bounds the number of options. -/
def elementOptions : Nat → Element α → List String → List String → Except Problem (Element α)
  | _, element, _, [] => .ok element
  | 0, _, _, token :: _ => .error (.unexpected token)
  | fuel + 1, element, seen, keyword :: tokens =>
    if seen.contains keyword then .error (.duplicateOption keyword)
    else do
      let (element, tokens) ← elementOption element keyword tokens
      elementOptions fuel element (keyword :: seen) tokens

/-- Reads the declaration of an element. -/
def element (scope : Scope) (tokens : List String) : Except Problem (Element α) := do
  let (id, tokens) ← identifier .elementId tokens
  let (source, tokens) ← next .elementSource tokens
  match scope.declared id with
  | some line => .error (.alreadyDeclared id line)
  | none =>
    if scope.sourceExists source then
      elementOptions tokens.length
        { id, source, pose := Pose.neutral, fit := true, visible := none, blink := none,
          line := scope.line } [] tokens
    else .error (.sourceMissing source id)

/-- Reads transforms up to the end of the line, at most one per channel. -/
def transforms : Nat → List (Transform α) → List String → Except Problem (List (Transform α))
  | _, ops, [] => .ok ops
  | 0, _, token :: _ => .error (.unexpected token)
  | fuel + 1, ops, keyword :: tokens =>
    match transform? keyword tokens with
    | none => .error (.unknownTransform keyword)
    | some reading => do
      let (op, tokens) ← reading
      if ops.any (fun o => decide (o.channel = op.channel)) then
        .error (.duplicateTransform op.channel.keyword)
      else transforms fuel (ops ++ [op]) tokens

/-- Makes sure that a name is declared. -/
def checkDeclared (scope : Scope) (field : Field) (id : String) : Except Problem Unit :=
  if (scope.declared id).isSome then .ok () else .error (.undeclared field id)

/-- Reads a move. -/
def move (scope : Scope) (tokens : List String) : Except Problem (Statement α) := do
  let (id, tokens) ← identifier .elementId tokens
  let (frames, tokens) ← range .move tokens
  checkDeclared scope .move id
  let ops ← transforms tokens.length [] tokens
  if ops.isEmpty then .error .noTransform else .ok (.move id frames ops)

/-- Reads the frame range of a line, if there is one. -/
def lineRange (tokens : List String) : Except Problem (Option FrameRange × List String) :=
  if startsWithRange tokens then (range .line tokens).map fun (r, tokens) => (some r, tokens)
  else .ok (none, tokens)

/-- Reads the owner of a line, if one is named. -/
def lineOwner (scope : Scope) : List String → Except Problem (Option String × List String)
  | "with" :: tokens => do
    let (id, tokens) ← identifier .elementId tokens
    checkDeclared scope .line id
    .ok (some id, tokens)
  | tokens => .ok (none, tokens)

/-- Reads a line. -/
def line (scope : Scope) (tokens : List String) : Except Problem (LineMark α) := do
  let (frames, tokens) ← lineRange tokens
  let (x₁, tokens) ← number .lineX1 tokens
  let (y₁, tokens) ← number .lineY1 tokens
  let (x₂, tokens) ← number .lineX2 tokens
  let (y₂, tokens) ← number .lineY2 tokens
  let (owner, tokens) ← lineOwner scope tokens
  finish tokens
  .ok { start := ⟨x₁, y₁⟩, finish := ⟨x₂, y₂⟩, range := frames, elementId := owner,
        line := scope.line }

/-- Reads the number of frames. -/
def frameCount (tokens : List String) : Except Problem Nat := do
  let (count, tokens) ← integer .frames tokens
  finish tokens
  if count < 1 then .error .framesNotPositive else .ok count.toNat

/-- Reads a frame rate. -/
def frameRate (tokens : List String) : Except Problem Binary64 := do
  let (rate, tokens) ← numeral finiteBinary64? .fps tokens
  finish tokens
  if 0 < rate then .ok rate else .error .fpsNotPositive

/-- Reads the size of the canvas. -/
def canvasSize (tokens : List String) : Except Problem Canvas := do
  let (width, tokens) ← integer .canvasWidth tokens
  let (height, tokens) ← integer .canvasHeight tokens
  finish tokens
  if width ≤ 0 ∨ height ≤ 0 then .error .canvasNotPositive else .ok ⟨width.toNat, height.toNat⟩

/-- Reads a statement. -/
def statement (scope : Scope) (tokens : List String) : Except Problem (Statement α) := do
  let (keyword, tokens) ← next .statement tokens
  match keyword with
  | "frames" => Statement.frames <$> frameCount tokens
  | "fps" => Statement.fps <$> frameRate tokens
  | "canvas" => Statement.canvas <$> canvasSize tokens
  | "element" => Statement.element <$> element scope tokens
  | "move" => move scope tokens
  | "line" => Statement.line <$> line scope tokens
  | _ => .error (.unknownStatement keyword)

end Flipbook.Script
