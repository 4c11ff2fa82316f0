import SdkUpgrade.Text.Quoted

/-!
# Strict UTF-8

Texts are kept in files as UTF-8. Decoding reads one byte after the other and remembers which
bytes the character at hand still needs. It stops at the first byte that cannot begin a character
or cannot continue the one at hand, and at an end of the data in the middle of a character.
-/

namespace SdkUpgrade

namespace Utf8

/-- The contents of a file. -/
abbrev Bytes := List UInt8

/-- The bytes of a text. -/
def encode (text : Text) : Bytes :=
  text.flatMap String.utf8EncodeChar

/-- A character of which some bytes are read: where it began, its first byte, how many bytes were
read and how many are needed, the range of the next byte, and the code point so far. -/
structure Pending where
  start : Nat
  lead : UInt8
  read : Nat
  needed : Nat
  low : Nat
  high : Nat
  code : Nat
  deriving DecidableEq, Repr

/-- Why data is not a text. -/
inductive Reason where
  | invalidStart
  | invalidContinuation
  | unexpectedEnd
  deriving DecidableEq, Repr

/-- Where and why decoding stopped: the offset and the number of the bytes at fault, and the first
of them. -/
structure Failure where
  start : Nat
  size : Nat
  lead : UInt8
  reason : Reason
  deriving DecidableEq, Repr

/-- The wording of a reason. -/
def Reason.message : Reason → Text
  | invalidStart => "invalid start byte"
  | invalidContinuation => "invalid continuation byte"
  | unexpectedEnd => "unexpected end of data"

/-- The wording of a failure. -/
def Failure.message (f : Failure) : Text :=
  let bytes : Text :=
    if f.size = 1 then
      "byte 0x" ++ Text.hexadecimal 2 f.lead.toNat ++ " in position " ++ Text.ofNat f.start
    else
      "bytes in position " ++ Text.ofNat f.start ++ "-" ++ Text.ofNat (f.start + f.size - 1)
  "'utf-8' codec can't decode " ++ bytes ++ ": " ++ f.reason.message

/-- The character that a byte begins, if it needs more bytes. The next byte's range leaves out
code points that have a shorter form, are surrogates, or lie beyond the last one. -/
def begin? (offset : Nat) (b : UInt8) : Option Pending :=
  let n := b.toNat
  if 0xc2 ≤ n ∧ n < 0xe0 then some ⟨offset, b, 1, 1, 0x80, 0xbf, n - 0xc0⟩
  else if 0xe0 ≤ n ∧ n < 0xf0 then
    some ⟨offset, b, 1, 2, if n = 0xe0 then 0xa0 else 0x80, if n = 0xed then 0x9f else 0xbf,
      n - 0xe0⟩
  else if 0xf0 ≤ n ∧ n < 0xf5 then
    some ⟨offset, b, 1, 3, if n = 0xf0 then 0x90 else 0x80, if n = 0xf4 then 0x8f else 0xbf,
      n - 0xf0⟩
  else none

/-- The text of the bytes from the given offset on, with the character at hand. -/
def decodeFrom : (offset : Nat) → Option Pending → Bytes → Except Failure Text
  | _, none, [] => .ok []
  | _, some p, [] => .error ⟨p.start, p.read, p.lead, .unexpectedEnd⟩
  | offset, none, b :: bytes =>
      if b < 0x80 then (decodeFrom (offset + 1) none bytes).map (Char.ofNat b.toNat :: ·)
      else
        match begin? offset b with
        | some p => decodeFrom (offset + 1) (some p) bytes
        | none => .error ⟨offset, 1, b, .invalidStart⟩
  | offset, some p, b :: bytes =>
      if p.low ≤ b.toNat ∧ b.toNat ≤ p.high then
        let code := 64 * p.code + b.toNat % 64
        if p.needed ≤ 1 then (decodeFrom (offset + 1) none bytes).map (Char.ofNat code :: ·)
        else
          decodeFrom (offset + 1)
            (some ⟨p.start, p.lead, p.read + 1, p.needed - 1, 0x80, 0xbf, code⟩) bytes
      else .error ⟨p.start, p.read, p.lead, .invalidContinuation⟩

/-- The text that the bytes stand for. -/
def decode (bytes : Bytes) : Except Failure Text :=
  decodeFrom 0 none bytes

end Utf8

end SdkUpgrade
