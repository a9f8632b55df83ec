import Flipbook.Error
import Flipbook.Number.Scalar
import Flipbook.Script.Timeline
import Flipbook.Text.Blank

/-!
# Tokens of a script

A script is read line by line. A line is cut at the first `#` and split into words, its tokens, so
that only the tokens of a line matter. A reader of a field takes the tokens that are left, and
yields the value of the field with the tokens behind it.

## Main definitions

* `lineTokens`, `scriptLines`: the tokens of each line.
* `number`, `integer`, `range`, `identifier`: readers of fields.
-/

namespace Flipbook.Script

/-- The tokens of a line. A carriage return at its end is blank like any other. -/
def lineTokens (line : List Char) : List String :=
  (words (line.takeWhile (· ≠ '#'))).map String.ofList

/-- The tokens of each line of a script. -/
def scriptLines (text : String) : List (List String) :=
  (piecesBy (· == '\n') text.toList).map lineTokens

/-- The integers up to this magnitude are safe from rounding. -/
def greatestInteger : Nat := Nat.pow 2 53 - 1

/-- Reads a token, whatever it is. -/
def next (field : Field) : List String → Except Problem (String × List String)
  | [] => .error (.expected field)
  | token :: rest => .ok (token, rest)

/-- Whether the next token is a number. -/
def startsWithNumber : List String → Bool
  | [] => false
  | token :: _ => (Decimal.ofChars? token.toList).isSome

/-- Reads a numeral that has a value. -/
def numeral {β : Type} (value? : Decimal → Option β) (field : Field) (tokens : List String) :
    Except Problem (β × List String) := do
  let (token, rest) ← next field tokens
  match Decimal.ofChars? token.toList with
  | none => .error (.notNumber field token)
  | some d =>
    match value? d with
    | none => .error (.tooLarge field token)
    | some v => .ok (v, rest)

/-- The value of a numeral as a scalar, if it is finite. -/
def finiteScalar? {α : Type} [Scalar α] (d : Decimal) : Option α :=
  let v : α := Scalar.ofDecimal d
  if Scalar.isFinite v then some v else none

/-- The value of a numeral as a double-precision number, if it is finite. -/
def finiteBinary64? (d : Decimal) : Option Binary64 :=
  if d.toBinary64.isFinite then some d.toBinary64 else none

/-- Reads a finite number. -/
def number {α : Type} [Scalar α] (field : Field) (tokens : List String) :
    Except Problem (α × List String) :=
  numeral finiteScalar? field tokens

/-- Reads an integer. -/
def integer (field : Field) (tokens : List String) : Except Problem (Int × List String) := do
  let (token, rest) ← next field tokens
  match signedInteger? token.toList with
  | none => .error (.notInteger field token)
  | some n =>
    if n.natAbs ≤ greatestInteger then .ok (n, rest) else .error (.tooLarge field token)

/-- The two integers that two points separate. -/
def rangeOfChars? (cs : List Char) : Option (Int × Int) :=
  match cs.dropWhile (· ≠ '.') with
  | '.' :: '.' :: tail => do
    let first ← signedInteger? (cs.takeWhile (· ≠ '.'))
    let last ← signedInteger? tail
    pure (first, last)
  | _ => none

/-- Whether the next token has the mark of a frame range. -/
def startsWithRange : List String → Bool
  | [] => false
  | token :: _ => hasTwoPoints token.toList
where
  /-- Whether two points follow each other somewhere. -/
  hasTwoPoints : List Char → Bool
    | '.' :: '.' :: _ => true
    | _ :: rest => hasTwoPoints rest
    | [] => false

/-- Reads a frame range. -/
def range (field : Field) (tokens : List String) : Except Problem (FrameRange × List String) := do
  let (token, rest) ← next field tokens
  match rangeOfChars? token.toList with
  | none => .error (.notRange field token)
  | some (first, last) =>
    if greatestInteger < first.natAbs ∨ greatestInteger < last.natAbs then
      .error (.rangeTooLarge token)
    else if first < 0 ∨ last < 0 then .error (.rangeNegative token)
    else if last < first then .error (.rangeReversed token)
    else .ok (⟨first.toNat, last.toNat⟩, rest)

/-- Whether a character may start an identifier. -/
def isIdentifierStart (c : Char) : Bool :=
  c.isAlpha || c = '_'

/-- Whether a character may stand inside an identifier. -/
def isIdentifierChar (c : Char) : Bool :=
  c.isAlphanum || c = '_' || c = '-'

/-- Whether a token is an identifier. -/
def isIdentifier (token : String) : Bool :=
  match token.toList with
  | [] => false
  | c :: rest => isIdentifierStart c && rest.all isIdentifierChar

/-- Reads an identifier. -/
def identifier (field : Field) (tokens : List String) : Except Problem (String × List String) := do
  let (token, rest) ← next field tokens
  if isIdentifier token then .ok (token, rest) else .error (.notIdentifier field token)

/-- Makes sure that no token is left. -/
def finish : List String → Except Problem Unit
  | [] => .ok ()
  | token :: _ => .error (.unexpected token)

end Flipbook.Script
