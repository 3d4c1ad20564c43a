import Sil.Text.Quoted

/-!
Decoding of UTF-8. A fault names the bytes that cannot be part of a character: a byte that starts
none, a start without its continuation, or a character that the end of the data cuts off.
-/
namespace Sil.Text

inductive Utf8Reason where
  | badStart
  | badContinuation
  | unexpectedEnd
  deriving DecidableEq

/-- The bytes from `first` up to `stop`, which is outside, and what is wrong with them. -/
structure Utf8Fault where
  first : Nat
  stop : Nat
  byte : UInt8
  reason : Utf8Reason
  deriving DecidableEq

namespace Utf8Fault

def reasonText : Utf8Reason → String
  | .badStart => "invalid start byte"
  | .badContinuation => "invalid continuation byte"
  | .unexpectedEnd => "unexpected end of data"

def message (f : Utf8Fault) : String :=
  let where_ :=
    if f.stop = f.first + 1 then
      s!"byte 0x{String.ofList (hexDigits 2 f.byte.toNat)} in position {f.first}"
    else s!"bytes in position {f.first}-{f.stop - 1}"
  "'utf-8' codec can't decode " ++ where_ ++ ": " ++ reasonText f.reason

end Utf8Fault

/-- The number of continuation bytes that a start byte announces, and its own bits. -/
def startByte? (b : Nat) : Option (Nat × Nat) :=
  if 0xC2 ≤ b && b < 0xE0 then some (1, b - 0xC0)
  else if 0xE0 ≤ b && b < 0xF0 then some (2, b - 0xE0)
  else if 0xF0 ≤ b && b < 0xF5 then some (3, b - 0xF0)
  else none

/-- The range of the byte after a start byte: it keeps out overlong forms, surrogates and what lies
beyond the last code point. -/
def secondRange (start : Nat) : Nat × Nat :=
  if start = 0xE0 then (0xA0, 0xBF)
  else if start = 0xED then (0x80, 0x9F)
  else if start = 0xF0 then (0x90, 0xBF)
  else if start = 0xF4 then (0x80, 0x8F)
  else (0x80, 0xBF)

/-- How many of `wanted` continuation bytes follow, the first of them within `range`, with the
number that their bits and `bits` form, and whether the data ended. -/
def continuation (range : Nat × Nat) (bits : Nat) : Nat → List UInt8 → Nat × Nat × Bool
  | 0, _ => (0, bits, false)
  | _ + 1, [] => (0, bits, true)
  | wanted + 1, b :: rest =>
    if range.1 ≤ b.toNat && b.toNat ≤ range.2 then
      let (n, value, ended) := continuation (0x80, 0xBF) (bits * 64 + (b.toNat - 0x80)) wanted rest
      (n + 1, value, ended)
    else (0, bits, false)

/-- The character at the head of a byte sequence and the number of its bytes; `position` is where it
stands. -/
def decodeChar (position : Nat) (start : UInt8) (rest : List UInt8) :
    Except Utf8Fault (Char × Nat) :=
  if start < 0x80 then .ok (Char.ofNat start.toNat, 1)
  else
    match startByte? start.toNat with
    | none => .error ⟨position, position + 1, start, .badStart⟩
    | some (wanted, bits) =>
      let (found, value, ended) := continuation (secondRange start.toNat) bits wanted rest
      if found = wanted then .ok (Char.ofNat value, wanted + 1)
      else
        .error ⟨position, position + 1 + found, start,
          if ended then .unexpectedEnd else .badContinuation⟩

/-- The characters of a byte sequence, the first `skip` bytes being part of one already decoded. -/
def decodeFrom (position skip : Nat) : List UInt8 → Except Utf8Fault (List Char)
  | [] => .ok []
  | b :: rest =>
    match skip with
    | skip + 1 => decodeFrom (position + 1) skip rest
    | 0 => do
      let (c, length) ← decodeChar position b rest
      return c :: (← decodeFrom (position + 1) (length - 1) rest)

def decodeUtf8 (bytes : List UInt8) : Except Utf8Fault (List Char) := decodeFrom 0 0 bytes

end Sil.Text
