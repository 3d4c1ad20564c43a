import Sil.Number.Binary64
import Sil.Text.CharClass

/-!
Numerals as text: integers in a given base, with a sign, a base mark, single underscores between
digits and blanks around them; and decimal fractions with an exponent. A decimal integer may have at
most 4300 digits, both when it is read and when it is written.
-/
namespace Sil.Numeral

/-- The most decimal digits that an integer is read or written with. -/
def digitLimit : Nat := 4300

def isWritable (n : Int) : Bool := n.natAbs < Nat.pow 10 digitLimit

def digit? (base : Nat) (c : Char) : Option Nat :=
  let n := c.toNat
  let value :=
    if 0x30 ≤ n && n ≤ 0x39 then n - 0x30
    else if 0x61 ≤ n && n ≤ 0x7A then n - 0x57
    else if 0x41 ≤ n && n ≤ 0x5A then n - 0x37
    else base
  if value < base then some value else none

def positionalValue (base : Nat) (digits : List Nat) : Nat :=
  digits.foldl (fun value d => value * base + d) 0

/-- Digits with single underscores between them; `none` for any other text. -/
def digits? (base : Nat) : List Char → Option (List Nat)
  | [] => none
  | [c] => (digit? base c).map ([·])
  | c :: '_' :: rest => do return (← digit? base c) :: (← digits? base rest)
  | c :: rest => do return (← digit? base c) :: (← digits? base rest)

inductive Refusal where
  | notNumeral
  | tooLong (digits : Nat)
  deriving DecidableEq

def splitSign : List Char → Bool × List Char
  | '-' :: rest => (true, rest)
  | '+' :: rest => (false, rest)
  | rest => (false, rest)

/-- The base that a mark after a zero announces. -/
def markedBase? (c : Char) : Option Nat :=
  match c with
  | 'x' => some 16
  | 'X' => some 16
  | 'o' => some 8
  | 'O' => some 8
  | 'b' => some 2
  | 'B' => some 2
  | _ => none

/-- The digits after a base mark; one underscore may follow the mark. -/
def afterMark : List Char → List Char
  | '_' :: rest => rest
  | rest => rest

/-- Base, digits and whether only zero may be written so. Without a given base the numeral's own
mark decides, a decimal then having no leading zero. -/
def splitBase (base : Option Nat) (cs : List Char) : Nat × List Char × Bool :=
  match base, cs with
  | some b, '0' :: c :: rest =>
    if markedBase? c = some b then (b, afterMark rest, false) else (b, cs, false)
  | some b, _ => (b, cs, false)
  | none, '0' :: c :: rest =>
    match markedBase? c with
    | some b => (b, afterMark rest, false)
    | none => (10, cs, true)
  | none, _ => (10, cs, false)

/-- How many digits the text opens with, underscores between them not counted. -/
def leadingDigits (base : Nat) (cs : List Char) : Nat :=
  ((cs.takeWhile fun c => (digit? base c).isSome || c == '_').filter (· != '_')).length

/-- Whether a base is a power of two, for which any number of digits is read. -/
def isBinaryBase (base : Nat) : Bool := base == 2 || base == 8 || base == 16

/-- The integer that a text is a numeral of, in the given base or the one that it announces. -/
def readInt (base : Option Nat) (text : List Char) : Except Refusal Int :=
  let (negative, cs) := splitSign (Text.trimBlanks (text.map Text.plainDigit))
  let (b, body, zeroOnly) := splitBase base cs
  if !isBinaryBase b && digitLimit < leadingDigits b body then
    .error (.tooLong (leadingDigits b body))
  else
    match digits? b body with
    | none => .error .notNumeral
    | some ds =>
      let n := positionalValue b ds
      if zeroOnly && n != 0 then .error .notNumeral
      else .ok (if negative then -n else n)

def lowered (cs : List Char) : List Char := cs.map Char.toLower

def isDigit (c : Char) : Bool := (digit? 10 c).isSome

def decimalValue (cs : List Char) : Nat := positionalValue 10 (cs.filterMap (digit? 10))

/-- The exponent of a decimal numeral: nothing, or `e`, a sign and digits. -/
def readExponent? : List Char → Option Int
  | [] => some 0
  | c :: rest =>
    if c == 'e' || c == 'E' then
      let (negative, digits) := splitSign rest
      if digits.isEmpty || !digits.all isDigit then none
      else
        let n : Int := decimalValue digits
        some (if negative then -n else n)
    else none

/-- Digits with a point before, between or after them, then an exponent. -/
def readUnsignedDecimal? (negative : Bool) (cs : List Char) : Option Binary64 :=
  let whole := cs.takeWhile isDigit
  let rest := cs.dropWhile isDigit
  let (fraction, tail) :=
    match rest with
    | '.' :: more => (more.takeWhile isDigit, more.dropWhile isDigit)
    | _ => ([], rest)
  if whole.isEmpty && fraction.isEmpty then none
  else
    (readExponent? tail).map fun e =>
      Binary64.ofDecimal negative (decimalValue (whole ++ fraction)) (e - fraction.length)

/-- The floating-point number that a text is a numeral or a name of. -/
def readFloat? (text : List Char) : Option Binary64 :=
  let (negative, cs) := splitSign (Text.trimBlanks (text.map Text.plainDigit))
  let name := String.ofList (lowered cs)
  if name = "inf" || name = "infinity" then some (.infinite negative)
  else if name = "nan" then some .nan
  else readUnsignedDecimal? negative cs

end Sil.Numeral
