import Sil.Text.Printable
import Sil.Text.Quoted

/-!
The display of a text inside a collection or a message: single quotes unless the text holds one and
no double quote, printable characters as they are.
-/
namespace Sil.Text

def displayQuote (t : Text) : Nat :=
  if t.any (·.val == 0x27) && !t.any (·.val == 0x22) then 0x22 else 0x27

def displayPoint (quote : Nat) (c : CodePoint) : List Char :=
  let n := c.val
  if n = quote || n = 0x5C then ['\\', Char.ofNat n]
  else if n = 0x09 then ['\\', 't']
  else if n = 0x0A then ['\\', 'n']
  else if n = 0x0D then ['\\', 'r']
  else if isPrintable n then [Char.ofNat n]
  else if n < 0x100 then '\\' :: 'x' :: hexDigits 2 n
  else if n < 0x10000 then unitEscape n
  else '\\' :: 'U' :: hexDigits 8 n

def displayChars (t : Text) : List Char :=
  let quote := displayQuote t
  Char.ofNat quote :: t.flatMap (displayPoint quote) ++ [Char.ofNat quote]

/-- A text between quotes, as a collection or a message shows it. -/
def display (t : Text) : String := String.ofList (displayChars t)

end Sil.Text
