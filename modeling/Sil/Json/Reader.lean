import Sil.Json.Basic

/-!
Reading JSON text. Besides the standard grammar the words `NaN`, `Infinity` and `-Infinity` are
numbers, and of two fields with one name the later value counts. A fault says what is wrong and at
which character.
-/
namespace Sil.Json

inductive Mistake where
  | byteOrderMark
  | expectingValue
  | extraData
  | expectingName
  | expectingComma
  | expectingColon
  | unterminatedString
  | controlCharacter
  | badEscape
  | badUnit
  deriving DecidableEq

namespace Mistake

def words : Mistake → String
  | .byteOrderMark => "Unexpected UTF-8 BOM (decode using utf-8-sig)"
  | .expectingValue => "Expecting value"
  | .extraData => "Extra data"
  | .expectingName => "Expecting property name enclosed in double quotes"
  | .expectingComma => "Expecting ',' delimiter"
  | .expectingColon => "Expecting ':' delimiter"
  | .unterminatedString => "Unterminated string starting at"
  | .controlCharacter => "Invalid control character at"
  | .badEscape => "Invalid \\escape"
  | .badUnit => "Invalid \\uXXXX escape"

end Mistake

/-- Why a text cannot be read: it breaks the grammar at a character, or holds an integer of too many
digits. -/
inductive ReadFault where
  | malformed (what : Mistake) (position : Nat)
  | tooManyDigits (digits : Nat)
  deriving DecidableEq

/-- A complaint with the line, the column and the number of its character. -/
def Mistake.located (what : Mistake) (position : Nat) (document : List Char) : String :=
  let before := document.take position
  let line := before.count '\n' + 1
  let column := (before.reverse.takeWhile (· != '\n')).length + 1
  s!"{what.words}: line {line} column {column} (char {position})"

/-- The part of a text still to be read, and the number of its first character. -/
structure Cursor where
  rest : List Char
  position : Nat

namespace Cursor

def isSpace (c : Char) : Bool := c == ' ' || c == '\t' || c == '\n' || c == '\r'

def advance (c : Cursor) (n : Nat) : Cursor := ⟨c.rest.drop n, c.position + n⟩

def skipSpace (c : Cursor) : Cursor := c.advance (c.rest.takeWhile isSpace).length

def fail {α : Type} (c : Cursor) (what : Mistake) : Except ReadFault α :=
  .error (.malformed what c.position)

/-- What follows if the rest opens with `word`. -/
def word? (c : Cursor) (word : String) : Option Cursor :=
  if word.toList.isPrefixOf c.rest then some (c.advance word.length) else none

end Cursor

def hexValue? (cs : List Char) : Option Nat :=
  (cs.mapM (Numeral.digit? 16)).map (Numeral.positionalValue 16)

/-- The unit after `\u`, given the characters from its first digit on. The closing quote must be
able to follow it. -/
def unit? (cs : List Char) : Option Nat :=
  if (cs.drop 4).isEmpty then none else hexValue? (cs.take 4)

/-- The low surrogate that an escape after a high one gives, if there is one. -/
def lowSurrogate? : List Char → Except Unit (Option CodePoint)
  | '\\' :: 'u' :: rest =>
    if (rest.drop 4).isEmpty then .ok none
    else
      match hexValue? (rest.take 4) with
      | none => .error ()
      | some n => .ok ((CodePoint.ofNat? n).filter CodePoint.isLowSurrogate)
  | _ => .ok none

def simpleEscape? (c : Char) : Option Nat :=
  match c with
  | '"' => some 0x22
  | '\\' => some 0x5C
  | '/' => some 0x2F
  | 'b' => some 0x08
  | 'f' => some 0x0C
  | 'n' => some 0x0A
  | 'r' => some 0x0D
  | 't' => some 0x09
  | _ => none

/-- The code point of an escape whose backslash is the cursor's first character. Two units that form
a surrogate pair are one code point. -/
def readEscape (start : Nat) (c : Cursor) : Except ReadFault (CodePoint × Cursor) :=
  match c.rest.drop 1 with
  | [] => .error (.malformed .unterminatedString start)
  | 'u' :: rest =>
    match unit? rest with
    | none => (c.advance 1).fail .badUnit
    | some n =>
      let point := CodePoint.ofNat n
      if CodePoint.isHighSurrogate point then
        match lowSurrogate? (rest.drop 4) with
        | .error _ => (c.advance 7).fail .badUnit
        | .ok none => .ok (point, c.advance 6)
        | .ok (some low) => .ok (CodePoint.join point low, c.advance 12)
      else .ok (point, c.advance 6)
  | e :: _ =>
    match simpleEscape? e with
    | some n => .ok (CodePoint.ofNat n, c.advance 2)
    | none => c.fail .badEscape

/-- The text of a string up to its closing quote; `start` is where its opening quote stands. -/
def readStringBody (start : Nat) : Nat → Cursor → Except ReadFault (Text × Cursor)
  | 0, _ => .error (.malformed .unterminatedString start)
  | fuel + 1, c =>
    match c.rest with
    | [] => .error (.malformed .unterminatedString start)
    | '"' :: _ => .ok ([], c.advance 1)
    | '\\' :: _ => do
      let (point, next) ← readEscape start c
      let (points, last) ← readStringBody start fuel next
      return (point :: points, last)
    | ch :: _ =>
      if ch.toNat < 0x20 then c.fail .controlCharacter
      else do
        let (points, last) ← readStringBody start fuel (c.advance 1)
        return (CodePoint.ofChar ch :: points, last)

def readString (fuel : Nat) (c : Cursor) : Except ReadFault (Text × Cursor) :=
  readStringBody c.position fuel (c.advance 1)

/-- The fraction of a number with its point: at least one digit after it, or nothing. -/
def fractionPart : List Char → List Char
  | '.' :: rest =>
    let digits := rest.takeWhile Numeral.isDigit
    if digits.isEmpty then [] else '.' :: digits
  | _ => []

/-- The exponent of a number: at least one digit, or nothing. -/
def exponentPart : List Char → List Char
  | e :: rest =>
    if e == 'e' || e == 'E' then
      let sign := match rest with
        | '+' :: _ => ['+']
        | '-' :: _ => ['-']
        | _ => []
      let digits := (rest.drop sign.length).takeWhile Numeral.isDigit
      if digits.isEmpty then [] else e :: sign ++ digits
    else []
  | [] => []

/-- The whole part of a number: a zero, or digits that do not open with one. -/
def wholePart : List Char → List Char
  | '0' :: _ => ['0']
  | rest => rest.takeWhile Numeral.isDigit

/-- A number. Without fraction and exponent it is an integer. -/
def readNumber (c : Cursor) : Except ReadFault (Json × Cursor) :=
  let negative := c.rest.head? == some '-'
  let sign := if negative then 1 else 0
  let body := c.rest.drop sign
  let whole := wholePart body
  if whole.isEmpty then c.fail .expectingValue
  else
    let afterWhole := body.drop whole.length
    let fraction := fractionPart afterWhole
    let exponent := exponentPart (afterWhole.drop fraction.length)
    let next := c.advance (sign + whole.length + fraction.length + exponent.length)
    if fraction.isEmpty && exponent.isEmpty then
      if Numeral.digitLimit < whole.length then .error (.tooManyDigits whole.length)
      else
        let n : Int := Numeral.decimalValue whole
        .ok (.int (if negative then -n else n), next)
    else
      match Numeral.readUnsignedDecimal? negative (whole ++ fraction ++ exponent) with
      | some x => .ok (.float x, next)
      | none => c.fail .expectingValue

def words : List (String × Json) :=
  [("null", .null), ("true", .bool true), ("false", .bool false), ("NaN", .float .nan),
   ("Infinity", .float (.infinite false)), ("-Infinity", .float (.infinite true))]

def readWord? (c : Cursor) : Option (Json × Cursor) :=
  words.findSome? fun (w, j) => (c.word? w).map (j, ·)

mutual

def readValue : Nat → Cursor → Except ReadFault (Json × Cursor)
  | 0, c => c.fail .expectingValue
  | fuel + 1, c =>
    match c.rest with
    | '"' :: _ => do
      let (s, next) ← readString fuel c
      return (.str s, next)
    | '\x7b' :: _ => do
      let inside := (c.advance 1).skipSpace
      if inside.rest.head? = some '\x7d' then return (.obj [], inside.advance 1)
      let (fields, next) ← readFields fuel [] inside
      return (.obj fields, next)
    | '[' :: _ => do
      let inside := (c.advance 1).skipSpace
      if inside.rest.head? = some ']' then return (.arr [], inside.advance 1)
      let (items, next) ← readItems fuel inside
      return (.arr items, next)
    | _ =>
      match readWord? c with
      | some found => .ok found
      | none => readNumber c

/-- The items of an array from its first or next one on, and the closing bracket. -/
def readItems : Nat → Cursor → Except ReadFault (List Json × Cursor)
  | 0, c => c.fail .expectingValue
  | fuel + 1, c => do
    let (item, next) ← readValue fuel c
    let next := next.skipSpace
    match next.rest with
    | ']' :: _ => return ([item], next.advance 1)
    | ',' :: _ => do
      let (items, last) ← readItems fuel (next.advance 1).skipSpace
      return (item :: items, last)
    | _ => next.fail .expectingComma

/-- The fields of an object added to those read so far, and the closing brace. -/
def readFields : Nat → List (Text × Json) → Cursor → Except ReadFault (List (Text × Json) × Cursor)
  | 0, _, c => c.fail .expectingName
  | fuel + 1, sofar, c =>
    match c.rest with
    | '"' :: _ => do
      let (key, next) ← readString fuel c
      let colon := next.skipSpace
      match colon.rest with
      | ':' :: _ => do
        let (value, next) ← readValue fuel (colon.advance 1).skipSpace
        let fields := setField key value sofar
        let next := next.skipSpace
        match next.rest with
        | '\x7d' :: _ => return (fields, next.advance 1)
        | ',' :: _ => readFields fuel fields (next.advance 1).skipSpace
        | _ => next.fail .expectingComma
      | _ => colon.fail .expectingColon
    | _ => c.fail .expectingName

end

/-- A document: one value with nothing but space around it. -/
def read (document : List Char) : Except ReadFault Json := do
  if document.head? = some (Char.ofNat 0xFEFF) then
    throw (.malformed .byteOrderMark 0)
  let start := (Cursor.mk document 0).skipSpace
  let (value, next) ← readValue (2 * document.length + 2) start
  let last := next.skipSpace
  if last.rest.isEmpty then return value else last.fail .extraData

end Sil.Json
