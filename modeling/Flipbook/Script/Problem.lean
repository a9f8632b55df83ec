/-!
# Problems of a script

Each way in which a script can be wrong is a constructor. The wording is in `Problem.message`
alone, and `Problem.kind` says whether the form of a statement, a name or a value is at fault.
-/

namespace Flipbook.Script

/-- What a token of a statement stands for. -/
inductive Field where
  | statement | frames | fps | canvasWidth | canvasHeight
  | elementId | elementSource | elementOption
  | translateX | translateY | rotateDegrees | scaleFactor | scaleYFactor
  | visible | blinkOn | blinkOff | blinkPhase
  | move | transform
  | line | lineX1 | lineY1 | lineX2 | lineY2
  deriving DecidableEq, Repr

/-- The name of a field in messages. -/
def Field.name : Field → String
  | statement => "statement"
  | frames => "frames"
  | fps => "fps"
  | canvasWidth => "canvas width"
  | canvasHeight => "canvas height"
  | elementId => "element id"
  | elementSource => "element source"
  | elementOption => "element option"
  | translateX => "translate x"
  | translateY => "translate y"
  | rotateDegrees => "rotate degrees"
  | scaleFactor => "scale factor"
  | scaleYFactor => "scale y factor"
  | visible => "visible"
  | blinkOn => "blink on frames"
  | blinkOff => "blink off frames"
  | blinkPhase => "blink phase"
  | move => "move"
  | transform => "transform"
  | line => "line"
  | lineX1 => "line x1"
  | lineY1 => "line y1"
  | lineX2 => "line x2"
  | lineY2 => "line y2"

/-- The statements that set a property of the whole script, each at most once. -/
inductive Header where
  | frames | fps | canvas
  deriving DecidableEq, Repr

/-- The keyword of a header statement. -/
def Header.keyword : Header → String
  | frames => "frames"
  | fps => "fps"
  | canvas => "canvas"

/-- The ways in which a script can be wrong. -/
inductive Problem where
  /-- The line ends where a field should follow. -/
  | expected (field : Field)
  /-- A field that should be a number is none. -/
  | notNumber (field : Field) (token : String)
  /-- A field that should be an integer is none. -/
  | notInteger (field : Field) (token : String)
  /-- A number is beyond the greatest one. -/
  | tooLarge (field : Field) (token : String)
  /-- A field that should be a frame range is none. -/
  | notRange (field : Field) (token : String)
  /-- A frame number of a range is beyond the greatest one. -/
  | rangeTooLarge (token : String)
  /-- A field that should be an identifier is none. -/
  | notIdentifier (field : Field) (token : String)
  /-- A token is left over. -/
  | unexpected (token : String)
  /-- A header statement is repeated. -/
  | duplicateHeader (header : Header) (firstLine : Nat)
  /-- An option of an element is repeated. -/
  | duplicateOption (keyword : String)
  /-- An option of an element is none. -/
  | unknownOption (keyword : String)
  /-- A transform of a move is none. -/
  | unknownTransform (keyword : String)
  /-- A transform of a move is repeated. -/
  | duplicateTransform (keyword : String)
  /-- A move without transforms. -/
  | noTransform
  | unknownStatement (keyword : String)
  /-- A name that no earlier line declares. -/
  | undeclared (field : Field) (id : String)
  /-- A name that an earlier line declares already. -/
  | alreadyDeclared (id : String) (firstLine : Nat)
  /-- The source of an element does not exist. -/
  | sourceMissing (source id : String)
  /-- The script does not say how many frames it has. -/
  | noFrames
  /-- A frame range starts or ends before the first frame. -/
  | rangeNegative (token : String)
  /-- A frame range ends before it starts. -/
  | rangeReversed (token : String)
  | rangeBeyondEnd (last totalFrames : Nat)
  | framesNotPositive
  /-- The frame rate is not positive. -/
  | fpsNotPositive
  | canvasNotPositive
  /-- The visible part of a blink is not positive. -/
  | blinkOnNotPositive
  /-- The hidden part or the phase of a blink is negative. -/
  | blinkNegative
  deriving DecidableEq, Repr

/-- What is at fault in a script. -/
inductive Kind where
  | form
  /-- A name, or a statement that is missing. -/
  | declaration
  /-- A value outside what is allowed. -/
  | range
  deriving DecidableEq, Repr

namespace Problem

/-- What is at fault. -/
def kind : Problem → Kind
  | undeclared .. | alreadyDeclared .. | sourceMissing .. | noFrames => .declaration
  | rangeNegative .. | rangeReversed .. | rangeBeyondEnd .. | framesNotPositive | fpsNotPositive
  | canvasNotPositive | blinkOnNotPositive | blinkNegative => .range
  | _ => .form

/-- A token in double quotes. -/
def quoted (token : String) : String :=
  "\"" ++ token ++ "\""

/-- The wording of a problem, without its line. -/
def message : Problem → String
  | expected field => "expected " ++ field.name
  | notNumber field token => "expected a number for " ++ field.name ++ ", got " ++ quoted token
  | notInteger field token => "expected an integer for " ++ field.name ++ ", got " ++ quoted token
  | tooLarge field token => field.name ++ " " ++ token ++ " is too large"
  | notRange field token =>
    "expected a frame range like 0..10 for " ++ field.name ++ ", got " ++ quoted token
  | rangeTooLarge token => "frame range " ++ token ++ " is too large"
  | notIdentifier field token => quoted token ++ " is not a valid " ++ field.name
  | unexpected token => "unexpected " ++ quoted token
  | duplicateHeader header firstLine =>
    "duplicate " ++ quoted header.keyword ++ " statement (first on line " ++
      toString firstLine ++ ")"
  | duplicateOption keyword => "duplicate " ++ quoted keyword ++ " option"
  | unknownOption keyword => "unknown element option " ++ quoted keyword
  | unknownTransform keyword => "unknown transform " ++ quoted keyword
  | duplicateTransform keyword => "duplicate " ++ quoted keyword ++ " in one move"
  | noTransform => "move needs at least one transform"
  | unknownStatement keyword => "unknown statement " ++ quoted keyword
  | undeclared field id => field.name ++ " references undeclared element " ++ quoted id
  | alreadyDeclared id firstLine =>
    "element " ++ quoted id ++ " already declared on line " ++ toString firstLine
  | sourceMissing source id =>
    "source " ++ quoted source ++ " for element " ++ quoted id ++ " does not exist"
  | noFrames => "script has no \"frames\" statement"
  | rangeNegative token => "frame range " ++ token ++ " has a negative frame"
  | rangeReversed token => "frame range " ++ token ++ " ends before it starts"
  | rangeBeyondEnd last totalFrames =>
    "frame " ++ toString last ++ " exceeds the total frame count of " ++ toString totalFrames
  | framesNotPositive => "frames must be at least 1"
  | fpsNotPositive => "fps must be positive"
  | canvasNotPositive => "canvas dimensions must be positive"
  | blinkOnNotPositive => "blink on frames must be positive"
  | blinkNegative => "blink frames must not be negative"

end Problem

end Flipbook.Script
