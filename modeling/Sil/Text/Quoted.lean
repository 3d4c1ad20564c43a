import Sil.Text.CodePoint

/-!
Two quoted forms of a text. The double-quoted form keeps the characters from space to `~` and
escapes all others in units of sixteen bits.
-/
namespace Sil.Text

def hexDigit (n : Nat) : Char := if n < 10 then Char.ofNat (0x30 + n) else Char.ofNat (0x57 + n)

/-- The low `width` hexadecimal digits of a number, in lower case. -/
def hexDigits : Nat → Nat → List Char
  | 0, _ => []
  | width + 1, n => hexDigits width (n / 16) ++ [hexDigit (n % 16)]

/-- `\uXXXX` -/
def unitEscape (n : Nat) : List Char := '\\' :: 'u' :: hexDigits 4 n

/-- A code point between double quotes: outside the basic plane it is written as two units. -/
def quotedPoint (c : CodePoint) : List Char :=
  match c.val with
  | 0x22 => ['\\', '"']
  | 0x5C => ['\\', '\\']
  | 0x0A => ['\\', 'n']
  | 0x0D => ['\\', 'r']
  | 0x09 => ['\\', 't']
  | 0x08 => ['\\', 'b']
  | 0x0C => ['\\', 'f']
  | n =>
    if 0x20 ≤ n && n < 0x7F then [Char.ofNat n]
    else if n < 0x10000 then unitEscape n
    else unitEscape (0xD800 + (n - 0x10000) / 0x400) ++ unitEscape (0xDC00 + (n - 0x10000) % 0x400)

def quotedChars (t : Text) : List Char := '"' :: t.flatMap quotedPoint ++ ['"']

/-- A text between double quotes, in ASCII. -/
def quoted (t : Text) : String := String.ofList (quotedChars t)

end Sil.Text
