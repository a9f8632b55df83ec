/-!
# UTF-8 text

Reading bytes as UTF-8. Where bytes are not well formed, each longest start of a well-formed
sequence, or else the single byte, is read as the replacement character U+FFFD. A byte order mark
is a character like any other.
-/

namespace Flipbook

/-- The character read for malformed bytes. -/
def replacementChar : Char :=
  Char.ofNat 0xFFFD

/-- What the first byte of a sequence announces: the bits that it holds itself, the number of
bytes to follow, and the range that the next of them must lie in. -/
structure Utf8Lead where
  /-- The value of the bits in the first byte. -/
  bits : Nat
  /-- The number of bytes that follow. -/
  follow : Nat
  /-- The least second byte; it excludes overlong forms. -/
  low : Nat
  /-- The greatest second byte; it excludes surrogates and values beyond U+10FFFF. -/
  high : Nat

/-- Reads a byte above `0x7F` as the first one of a sequence. -/
def Utf8Lead.ofByte? (b : Nat) : Option Utf8Lead :=
  if 0xC2 ≤ b ∧ b ≤ 0xDF then some ⟨b - 0xC0, 1, 0x80, 0xBF⟩
  else if 0xE0 ≤ b ∧ b ≤ 0xEF then
    some ⟨b - 0xE0, 2, if b = 0xE0 then 0xA0 else 0x80, if b = 0xED then 0x9F else 0xBF⟩
  else if 0xF0 ≤ b ∧ b ≤ 0xF4 then
    some ⟨b - 0xF0, 3, if b = 0xF0 then 0x90 else 0x80, if b = 0xF4 then 0x8F else 0xBF⟩
  else none

/-- Reads on inside a sequence; `lead.low` and `lead.high` bound the next byte. The sequence that
breaks off stands for one replacement character, and reading goes on with the byte that did not
fit. -/
def decodeUtf8From : Option Utf8Lead → List UInt8 → List Char
  | none, [] => []
  | some _, [] => [replacementChar]
  | none, b :: rest =>
    if b.toNat < 0x80 then Char.ofNat b.toNat :: decodeUtf8From none rest
    else
      match Utf8Lead.ofByte? b.toNat with
      | some lead => decodeUtf8From (some lead) rest
      | none => replacementChar :: decodeUtf8From none rest
  | some lead, b :: rest =>
    if lead.low ≤ b.toNat ∧ b.toNat ≤ lead.high then
      let bits := lead.bits * 64 + (b.toNat - 0x80)
      if lead.follow ≤ 1 then Char.ofNat bits :: decodeUtf8From none rest
      else decodeUtf8From (some ⟨bits, lead.follow - 1, 0x80, 0xBF⟩) rest
    else if b.toNat < 0x80 then
      replacementChar :: Char.ofNat b.toNat :: decodeUtf8From none rest
    else
      match Utf8Lead.ofByte? b.toNat with
      | some next => replacementChar :: decodeUtf8From (some next) rest
      | none => replacementChar :: replacementChar :: decodeUtf8From none rest

/-- The text that bytes stand for. -/
def decodeUtf8 (bytes : List UInt8) : String :=
  String.ofList (decodeUtf8From none bytes)

/-- The bytes of a text. -/
def encodeUtf8 (text : String) : List UInt8 :=
  text.toUTF8.toList

/-- The text whose characters have the given code points. -/
def decodeLatin1 (bytes : List UInt8) : List Char :=
  bytes.map fun b => Char.ofNat b.toNat

/-- The low bytes of the code points of a text. -/
def encodeLatin1 (cs : List Char) : List UInt8 :=
  cs.map fun c => c.toNat.toUInt8

end Flipbook
