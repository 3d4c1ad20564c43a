import Sil.Number.Shortest

/-!
How a floating-point number is written: its shortest digits, positional while the first digit stands
for a power between `10 ^ -4` and `10 ^ 15`, and with an exponent of at least two digits elsewhere.
-/
namespace Sil.Binary64

/-- The exponents of the first digit that are written positionally. -/
def isPositional (exponent : Int) : Bool := -4 ≤ exponent && exponent < 16

def zeros (n : Nat) : List Char := List.replicate n '0'

/-- Digits with a point after the digit for `10 ^ 0`, and at least one digit on both sides of it. -/
def positional (digits : List Char) (exponent : Int) : List Char :=
  if exponent < 0 then '0' :: '.' :: zeros (-exponent - 1).toNat ++ digits
  else
    let whole := exponent.toNat + 1
    let filled := digits ++ zeros (whole - digits.length)
    let fraction := filled.drop whole
    filled.take whole ++ '.' :: (if fraction.isEmpty then ['0'] else fraction)

/-- One digit, the others after a point, and the exponent with its sign. -/
def exponential (digits : List Char) (exponent : Int) : List Char :=
  let fraction := if digits.length ≤ 1 then [] else '.' :: digits.drop 1
  let power := Nat.toDigits 10 exponent.natAbs
  digits.take 1 ++ fraction ++ ['e', if exponent < 0 then '-' else '+'] ++
    zeros (2 - power.length) ++ power

def magnitudeText (mantissa : Nat) (exponent : Int) : List Char :=
  if mantissa = 0 then ['0', '.', '0']
  else
    let (digits, e) := (shortest mantissa exponent).scientific
    if isPositional e then positional digits e else exponential digits e

def text : Binary64 → String
  | .finite negative m e => String.ofList ((if negative then ['-'] else []) ++ magnitudeText m e)
  | .infinite negative => if negative then "-inf" else "inf"
  | .nan => "nan"

end Sil.Binary64
