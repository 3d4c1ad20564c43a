import Sil.Error

/-!
The value of an escape sequence in a string literal.
-/
namespace Sil.Escape

def simple : List (String × Nat) :=
  [("\\n", 0x0A), ("\\t", 0x09), ("\\r", 0x0D), ("\\b", 0x08), ("\\f", 0x0C), ("\\v", 0x0B),
   ("\\0", 0x00), ("\\'", 0x27), ("\\\"", 0x22), ("\\\\", 0x5C)]

def point (n : Int) : Except Fault CodePoint :=
  if n < -2147483648 || 2147483648 ≤ n then .error .oversizedPoint
  else
    match if n < 0 then none else CodePoint.ofNat? n.toNat with
    | some p => .ok p
    | none => .error .outsideUnicode

def braced (digits : List Char) : Except Fault Text :=
  match Numeral.readInt (some 16) digits with
  | .ok n => do return [← point n]
  | .error _ => .error (.notInBase 16 (String.ofList digits))

def byteHex? (b : UInt8) : Option Nat := Numeral.digit? 16 (Char.ofNat b.toNat)

/-- A code point given by exactly `width` hexadecimal digits, its backslash standing at `start`. -/
def fixedWidth (start width : Nat) (form : String) (rest : List UInt8) : Except Fault CodePoint :=
  let digits := (rest.take width).takeWhile fun b => (byteHex? b).isSome
  if digits.length < width then .error (.badEscape start (start + 2 + digits.length) (.cut form))
  else
    match CodePoint.ofNat? (Numeral.positionalValue 16 (digits.filterMap byteHex?)) with
    | some p => .ok p
    | none => .error (.badEscape start (start + 2 + width) .beyondUnicode)

def letter? (b : UInt8) : Option Nat :=
  match Char.ofNat b.toNat with
  | '\\' => some 0x5C
  | '\x27' => some 0x27
  | '"' => some 0x22
  | 'b' => some 0x08
  | 'f' => some 0x0C
  | 't' => some 0x09
  | 'n' => some 0x0A
  | 'r' => some 0x0D
  | 'v' => some 0x0B
  | 'a' => some 0x07
  | _ => none

def isOctal (b : UInt8) : Bool := 0x30 ≤ b.toNat && b.toNat ≤ 0x37

/-- What the escape at `start` denotes, given the bytes after its backslash, and how many of them it
takes. -/
def general (start : Nat) : List UInt8 → Except Fault (Text × Nat)
  | [] => .error (.badEscape start (start + 1) .loneBackslash)
  | b :: rest =>
    match Char.ofNat b.toNat with
    | '\n' => .ok ([], 1)
    | 'x' => do return ([← fixedWidth start 2 "\\xXX" rest], 3)
    | 'u' => do return ([← fixedWidth start 4 "\\uXXXX" rest], 5)
    | 'U' => do return ([← fixedWidth start 8 "\\UXXXXXXXX" rest], 9)
    | 'N' =>
      let name := (rest.drop 1).takeWhile (· != 0x7D)
      if rest.head? != some 0x7B then .error (.badEscape start (start + 2) .malformedName)
      else if name.isEmpty || rest.length ≤ name.length + 1 then
        .error (.badEscape start (start + 3 + name.length) .malformedName)
      else .error (.badEscape start (start + 4 + name.length) .unknownName)
    | _ =>
      match letter? b with
      | some n => .ok ([CodePoint.ofNat n], 1)
      | none =>
        if isOctal b then
          let digits := ((b :: rest).take 3).takeWhile isOctal
          let n := Numeral.positionalValue 8 (digits.map fun d => d.toNat - 0x30)
          .ok ([CodePoint.ofNat n], digits.length)
        else .ok ([CodePoint.ofNat 0x5C, CodePoint.ofNat b.toNat], 1)

/-- The text that bytes with escapes denote; a byte outside an escape stands for the code point of
its number. The first `skip` bytes belong to an escape already read. -/
def decodeBytes (position skip : Nat) : List UInt8 → Except Fault Text
  | [] => .ok []
  | b :: rest =>
    match skip with
    | skip + 1 => decodeBytes (position + 1) skip rest
    | 0 =>
      if b = 0x5C then do
        let (points, taken) ← general position rest
        return points ++ (← decodeBytes (position + 1) taken rest)
      else do return CodePoint.ofNat b.toNat :: (← decodeBytes (position + 1) 0 rest)

/-- The value of an escape sequence with its backslash. A line break after the backslash is dropped,
and any other character stands for itself. -/
def decode (text : String) : Except Fault Text :=
  match simple.lookup text with
  | some n => .ok [CodePoint.ofNat n]
  | none =>
    match text.toList with
    | '\\' :: 'u' :: '\x7b' :: rest => braced rest.dropLast
    | '\\' :: 'u' :: _ => decodeBytes 0 0 text.toUTF8.toList
    | '\\' :: 'x' :: _ => decodeBytes 0 0 text.toUTF8.toList
    | cs => .ok (((cs.drop 1).dropWhile fun c => c == '\r' || c == '\n').map CodePoint.ofChar)

end Sil.Escape
