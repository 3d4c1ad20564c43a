/-!
Binary floating-point numbers of 64 bits as exact values `mantissa * 2 ^ exponent`, and the rounding
of a ratio of naturals to the nearest of them.
-/
namespace Sil

/-- A 64-bit binary floating-point number. A finite one has a mantissa below `2 ^ 53` and the least
exponent, at least `-1074`, that leaves it so. -/
inductive Binary64 where
  | finite (negative : Bool) (mantissa : Nat) (exponent : Int)
  | infinite (negative : Bool)
  | nan
  deriving DecidableEq

namespace Binary64

def minExponent : Int := -1074

def maxExponent : Int := 971

/-- The least mantissa of 53 bits, `2 ^ 52`. -/
def leastFull : Nat := 4503599627370496

/-- The first number with more bits than a mantissa, `2 ^ 53`. -/
def mantissaBound : Nat := 9007199254740992

def twoTo (n : Nat) : Nat := Nat.pow 2 n

def tenTo (n : Nat) : Nat := Nat.pow 10 n

def zero (negative : Bool) : Binary64 := .finite negative 0 minExponent

/-- The quotient `num / den` rounded to the nearest natural, a tie to the even one. -/
def roundDiv (num den : Nat) : Nat :=
  let q := num / den
  let r := num % den
  if 2 * r < den then q else if den < 2 * r then q + 1 else q + q % 2

/-- Numerator and denominator of `num / den` in units of `2 ^ exponent`. -/
def inUnits (num den : Nat) (exponent : Int) : Nat × Nat :=
  if 0 ≤ exponent then (num, den * twoTo exponent.toNat) else (num * twoTo (-exponent).toNat, den)

/-- The exponent at which `num / den` has a 53-bit mantissa, or the least exponent. -/
def targetExponent (num den : Nat) : Int :=
  let low : Int := (Nat.log2 num : Int) - Nat.log2 den - 53
  let (n, d) := inUnits num den low
  max minExponent (if n / d < mantissaBound then low else low + 1)

/-- The number with a mantissa of at most `2 ^ 53`, infinite if the exponent is too large. -/
def ofRounded (negative : Bool) (m : Nat) (e : Int) : Binary64 :=
  if m = mantissaBound then
    if maxExponent < e + 1 then .infinite negative else .finite negative leastFull (e + 1)
  else if maxExponent < e then .infinite negative
  else .finite negative m e

/-- The number nearest to `num / den`, a tie going to the even mantissa. -/
def ofRatio (negative : Bool) (num den : Nat) : Binary64 :=
  if num = 0 then zero negative
  else
    let e := targetExponent num den
    let (n, d) := inUnits num den e
    ofRounded negative (roundDiv n d) e

def ofDecimal (negative : Bool) (digits : Nat) (scale : Int) : Binary64 :=
  if digits = 0 then zero negative
  else
    -- outside this range of magnitudes the answer does not hang on the digits
    let magnitude : Int := (Nat.log2 digits : Int) * 3 / 10 + scale
    if 400 < magnitude then .infinite negative
    else if (Nat.log2 digits : Int) * 4 / 10 + scale < -400 then zero negative
    else if 0 ≤ scale then ofRatio negative (digits * tenTo scale.toNat) 1
    else ofRatio negative digits (tenTo (-scale).toNat)

def toInt? : Binary64 → Option Int
  | .finite negative m e =>
    let signed (n : Nat) : Int := if negative then -n else n
    if 0 ≤ e then some (signed (m * twoTo e.toNat))
    else if m % twoTo (-e).toNat = 0 then some (signed (m / twoTo (-e).toNat)) else none
  | _ => none

end Binary64
end Sil
