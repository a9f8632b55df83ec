import Flipbook.Geometry.Point
import Flipbook.Number.Numeral

/-!
# Plotter instructions

A plot file is a sequence of instructions that end with semicolons. An instruction is a mnemonic of
two letters, in either case, followed by numbers between blanks and commas. Mnemonics that are not
known, and instructions with an argument that is no finite number, are skipped.
-/

namespace Flipbook.Plot

/-- What the pen is told to do. -/
inductive Instruction (α : Type) where
  /-- Lift the pen and return to the origin. -/
  | reset
  /-- Lift the pen, then go along the points. -/
  | penUp (points : List (Point α))
  /-- Lower the pen, then go along the points. -/
  | penDown (points : List (Point α))
  /-- Go along the points. -/
  | moveTo (points : List (Point α))
  /-- Go along points that are given each relative to the one before. -/
  | moveBy (deltas : List (Point α))
  /-- Go along an arc about a centre, by an angle in degrees. -/
  | arc (centre : Point α) (sweep : α)
  deriving DecidableEq, Repr

/-- The mnemonics that are known. -/
inductive Mnemonic where
  | reset | penUp | penDown | plotAbsolute | plotRelative | arcAbsolute
  deriving DecidableEq, Repr

/-- The capital of a letter of a mnemonic. Of all characters outside ASCII, only the dotless `ı` has
a capital that occurs in one. -/
def capital (c : Char) : Char :=
  if c.toNat = 0x131 then 'I' else c.toUpper

/-- The mnemonic that two characters spell. -/
def Mnemonic.ofChars? (c d : Char) : Option Mnemonic :=
  match capital c, capital d with
  | 'I', 'N' => some reset
  | 'P', 'U' => some penUp
  | 'P', 'D' => some penDown
  | 'P', 'A' => some plotAbsolute
  | 'P', 'R' => some plotRelative
  | 'A', 'A' => some arcAbsolute
  | _, _ => none

variable {α : Type} [Scalar α]

/-- The finite number that an argument stands for. -/
def argument? (cs : List Char) : Option α :=
  match Numeral.ofChars? cs with
  | some (.decimal d) =>
    let v : α := Scalar.ofDecimal d
    if Scalar.isFinite v then some v else none
  | _ => none

/-- The arguments behind a mnemonic, if all of them are finite numbers. -/
def arguments? (cs : List Char) : Option (List α) :=
  (wordsBy (fun c => isBlank c || c = ',') cs).mapM argument?

/-- Takes numbers in pairs, as points; a last number without a partner is dropped. -/
def pairs : List α → List (Point α)
  | x :: y :: rest => ⟨x, y⟩ :: pairs rest
  | _ => []

/-- The instruction that a mnemonic and its arguments make. An arc needs three numbers. -/
def Instruction.make? : Mnemonic → List α → Option (Instruction α)
  | .reset, _ => some .reset
  | .penUp, args => some (.penUp (pairs args))
  | .penDown, args => some (.penDown (pairs args))
  | .plotAbsolute, args => some (.moveTo (pairs args))
  | .plotRelative, args => some (.moveBy (pairs args))
  | .arcAbsolute, cx :: cy :: sweep :: _ => some (.arc ⟨cx, cy⟩ sweep)
  | .arcAbsolute, _ => none

/-- The instruction that a text without semicolons spells. -/
def Instruction.ofChars? (cs : List Char) : Option (Instruction α) :=
  match trimBlank cs with
  | c :: d :: rest => do
    let mnemonic ← Mnemonic.ofChars? c d
    let args ← arguments? rest
    Instruction.make? mnemonic args
  | _ => none

/-- The instructions of a plot file. -/
def instructions (text : List Char) : List (Instruction α) :=
  (piecesBy (· == ';') text).filterMap Instruction.ofChars?

end Flipbook.Plot
