import Sil.Instruction

/-!
Records given as JSON: source spans, operands and instructions. Fields are checked in the order in
which a record declares them and the first complaint counts; fields that a record does not have are
ignored.
-/
namespace Sil

namespace Json

def asString : Json → Except Complaint String
  | .str s =>
    match s.toString? with
    | some t => .ok t
    | none => .error .brokenString
  | _ => .error .notString

/-- Whether digits are parted by single underscores only. -/
def isSpaced : List Char → Bool
  | [] => false
  | [c] => c != '_'
  | '_' :: '_' :: _ => false
  | _ :: rest => isSpaced rest

/-- Leading zeros taken off a numeral, underscores among them too. A zero before a point or at the
end stays, and nothing but a digit or a sign may open the numeral. -/
def stripZeros : List Char → Option (List Char)
  | '0' :: rest =>
    let digits := rest.dropWhile fun c => c == '0' || c == '_'
    match digits with
    | [] => some [rest.getLast?.getD '0']
    | '.' :: _ => some ('0' :: digits)
    | c :: _ => if Numeral.isDigit c then some digits else none
  | c :: rest => if Numeral.isDigit c || c == '-' then some (c :: rest) else none
  | [] => none

def stripFraction (cs : List Char) : List Char :=
  let fraction := cs.dropWhile (· != '.')
  if (fraction.drop 1).all (· == '0') then cs.takeWhile (· != '.') else cs

/-- A decimal integer in its plain form: no leading zeros and an optional minus sign. -/
def plainInteger? (cs : List Char) : Option Int :=
  let negative := cs.head? == some '-'
  let digits := if negative then cs.drop 1 else cs
  if digits.isEmpty || !digits.all Numeral.isDigit then none
  else if digits.head? == some '0' && 1 < digits.length then none
  else
    let n : Int := Numeral.decimalValue digits
    some (if negative then -n else n)

/-- An integer given as text: blanks around it, a sign, leading zeros, single underscores between
digits and an empty fraction are all allowed. -/
def integerOfText (cs : List Char) : Except Complaint Int :=
  let trimmed := Text.trimBlanks cs
  let unsigned :=
    match trimmed with
    | '+' :: rest => if rest.head? == some '-' then none else some rest
    | rest => some rest
  match unsigned.bind stripZeros with
  | none => .error .unreadableInteger
  | some body =>
    let body := stripFraction body
    let body :=
      if body.head? != some '_' && isSpaced body then body.filter (· != '_') else body
    if Numeral.digitLimit < body.length then .error .oversizedInteger
    else
      match plainInteger? body with
      | some n => .ok n
      | none => .error .unreadableInteger

/-- An integer: a number without a fraction, a truth value, or text. -/
def asInteger : Json → Except Complaint Int
  | .int n => .ok n
  | .bool b => .ok (if b then 1 else 0)
  | .float x =>
    match x with
    | .finite .. =>
      match x.toInt? with
      | none => .error .fractionalInteger
      | some n => if n.natAbs < 9223372036854775808 then .ok n else .error .oversizedInteger
    | _ => .error .infiniteInteger
  | .str s =>
    match s.toString? with
    | some t => integerOfText t.toList
    | none => .error .unreadableInteger
  | _ => .error .notInteger

def asList : Json → Except Complaint (List Json)
  | .arr items => .ok items
  | _ => .error .notList

def asRecord (name : String) : Json → Except Complaint (List (Text × Json))
  | .obj fields => .ok fields
  | _ => .error (.notRecord name)

def required {α : Type} (fields : List (Text × Json)) (key : String)
    (read : Json → Except Complaint α) : Except Complaint α :=
  match lookup (Text.ofString key) fields with
  | some j => read j
  | none => .error .missingField

def defaulted {α : Type} (fields : List (Text × Json)) (key : String) (default : α)
    (read : Json → Except Complaint α) : Except Complaint α :=
  match lookup (Text.ofString key) fields with
  | some j => read j
  | none => .ok default

def nullable {α : Type} (read : Json → Except Complaint α) : Json → Except Complaint (Option α)
  | .null => .ok none
  | j => (read j).map some

end Json

open Json

def Location.ofFields (fields : List (Text × Json)) : Except Complaint Location := do
  let startLine ← required fields "start_line" asInteger
  let startColumn ← required fields "start_col" asInteger
  let endLine ← required fields "end_line" asInteger
  let endColumn ← required fields "end_col" asInteger
  return ⟨startLine, startColumn, endLine, endColumn⟩

def Location.ofJson (j : Json) : Except Complaint Location := do
  Location.ofFields (← asRecord "SourceLocation" j)

inductive OperandKind where
  | const
  | var
  | temp

def OperandKind.ofJson (j : Json) : Except Complaint OperandKind :=
  match j.asString with
  | .ok "const" => .ok .const
  | .ok "var" => .ok .var
  | .ok "temp" => .ok .temp
  | _ => .error .notOperandKind

/-- An operand: a literal keeps the spelling that is given with it, even an empty one. -/
def Operand.ofJson (j : Json) : Except Complaint Operand := do
  let fields ← asRecord "Operand" j
  let kind ← required fields "kind" OperandKind.ofJson
  let value ← defaulted fields "value" Json.null Except.ok
  let raw ← defaulted fields "raw" "" asString
  return match kind with
    | .const => .const value raw
    | .var => .var (Name.ofJson value)
    | .temp => .temp (Name.ofJson value)

def Opcode.ofJson (j : Json) : Except Complaint Opcode :=
  match j.asString with
  | .ok s =>
    match Opcode.ofName? s with
    | some o => .ok o
    | none => .error .notOpcode
  | .error _ => .error .notOpcode

def Operand.listOfJson (j : Json) : Except Complaint (List Operand) := do
  (← asList j).mapM Operand.ofJson

/-- An instruction. Nothing asks for the fields that its operation needs. -/
def Instruction.ofJson (j : Json) : Except Complaint Instruction := do
  let fields ← asRecord "IRInstruction" j
  let opcode ← required fields "opcode" Opcode.ofJson
  let name ← defaulted fields "name" none (nullable asString)
  let dest ← defaulted fields "dest" none (nullable asString)
  let operands ← defaulted fields "operands" [] Operand.listOfJson
  let label ← defaulted fields "label" none (nullable asString)
  let location ← defaulted fields "source_location" Location.unknown Location.ofJson
  return { opcode, name, dest, operands, label, location }

end Sil
