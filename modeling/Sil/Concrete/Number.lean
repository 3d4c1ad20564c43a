import Sil.Error
import Sil.Syntax.Node

/-!
The value of a number literal. A leading zero marks octal digits if all of them can be such; any
other integer is read in the base that it announces, and what is no integer as a decimal fraction.
-/
namespace Sil.NumberLiteral

/-- A zero and more digits, all below the base. -/
def isLegacy (base : Nat) : List Char → Bool
  | '0' :: c :: rest => (c :: rest).all fun d => (Numeral.digit? base d).isSome
  | _ => false

def value (digits : List Char) : Except Fault Json :=
  if isLegacy 8 digits then
    .ok (.int (Numeral.positionalValue 8 (digits.filterMap (Numeral.digit? 8))))
  else if isLegacy 10 digits then
    if Numeral.digitLimit < digits.length then .error (.digitLimit (some digits.length))
    else .ok (.int (Numeral.decimalValue digits))
  else
    match Numeral.readInt none digits with
    | .ok n => .ok (.int n)
    | .error _ =>
      match Numeral.readFloat? digits with
      | some x => .ok (.float x)
      | none => .error (.notNumeral (String.ofList digits))

/-- The node of a number literal; one that ends in `n` is of a foreign kind. -/
def node (raw : String) (loc : Location) : Except Fault Node :=
  let cs := raw.toList
  if cs.getLast? = some 'n' then .ok (.foreign (some loc) "BigIntLiteral")
  else do return .literal (some loc) (← value (cs.filter (· != '_'))) raw

end Sil.NumberLiteral
