import Sil.Number.Binary64

/-!
The shortest decimal that reads back as a given binary number: the fewest digits for which some
decimal lies in the interval that rounds to the number, and of those the nearest.
-/
namespace Sil.Binary64

structure Decimal where
  digits : Nat
  scale : Int

/-- An interval of positive rationals over one denominator; the ends belong to it if `closed`. -/
structure Interval where
  low : Nat
  value : Nat
  high : Nat
  den : Nat
  closed : Bool

/-- The decimals that round to `mantissa * 2 ^ exponent`, with the number itself between them. Below
a power of two the neighbour is half as far away. -/
def roundingInterval (mantissa : Nat) (exponent : Int) : Interval :=
  let narrow := mantissa = leastFull && minExponent < exponent
  let low := if narrow then 4 * mantissa - 1 else 4 * mantissa - 2
  let value := 4 * mantissa
  let high := 4 * mantissa + 2
  let e := exponent - 2
  let closed := mantissa % 2 = 0
  if 0 ≤ e then
    let k := twoTo e.toNat
    ⟨low * k, value * k, high * k, 1, closed⟩
  else ⟨low, value, high, twoTo (-e).toNat, closed⟩

def Interval.inUnits (i : Interval) (scale : Int) : Interval :=
  if 0 ≤ scale then { i with den := i.den * tenTo scale.toNat }
  else
    let k := tenTo (-scale).toNat
    { i with low := i.low * k, value := i.value * k, high := i.high * k }

def Interval.holds (i : Interval) (n : Nat) : Bool :=
  if i.closed then i.low ≤ n * i.den && n * i.den ≤ i.high
  else i.low < n * i.den && n * i.den < i.high

/-- The integer of the interval next to its value: the nearer neighbour, on a tie the even one. -/
def Interval.nearest? (i : Interval) : Option Nat :=
  let below := i.value / i.den
  let above := below + 1
  match i.holds below, i.holds above with
  | true, true =>
    let toBelow := i.value - below * i.den
    let toAbove := above * i.den - i.value
    if toBelow < toAbove then some below
    else if toAbove < toBelow then some above
    else some (below + below % 2)
  | true, false => some below
  | false, true => some above
  | false, false => none

/-- The `e` with `10 ^ e ≤ value < 10 ^ (e + 1)`. -/
def Interval.decimalExponent (i : Interval) : Int :=
  let guess : Int := ((Nat.log2 i.value : Int) - Nat.log2 i.den) * 30103 / 100000
  let reaches (e : Int) : Bool :=
    let j := i.inUnits e
    j.den ≤ j.value
  if reaches (guess + 2) then guess + 2
  else if reaches (guess + 1) then guess + 1
  else if reaches guess then guess
  else guess - 1

/-- The first grid, from `10 ^ scale` on downwards, that has a point in the interval. -/
def Interval.firstGrid (i : Interval) : Nat → Int → Decimal
  | 0, scale => ⟨(i.inUnits scale).value / (i.inUnits scale).den, scale⟩
  | n + 1, scale =>
    match (i.inUnits scale).nearest? with
    | some d => ⟨d, scale⟩
    | none => i.firstGrid n (scale - 1)

/-- The shortest decimal for a positive mantissa: seventeen digits always suffice. -/
def shortest (mantissa : Nat) (exponent : Int) : Decimal :=
  let i := roundingInterval mantissa exponent
  i.firstGrid 17 i.decimalExponent

/-- The digits of a decimal without closing zeros, and the exponent of the first of them. -/
def Decimal.scientific (d : Decimal) : List Char × Int :=
  let cs := Nat.toDigits 10 d.digits
  let kept := (cs.reverse.dropWhile (· == '0')).reverse
  (kept, d.scale + cs.length - 1)

end Sil.Binary64
