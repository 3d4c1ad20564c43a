import Sil.Json.Basic
import Sil.Location
import Sil.Opcode
import Sil.Text.Utf8

/-!
What can go wrong, as causes. A program that lies outside the supported subset is refused with a
tagged error, which a service reports to its caller; a broken value or request is a fault.
-/
namespace Sil

inductive BlockKind where
  | branch
  | function
  deriving DecidableEq

def BlockKind.text : BlockKind → String
  | .branch => "branch"
  | .function => "function"

inductive FlowReason where
  | testNotUsed
  | jumpWithoutTest
  | backwardBranch
  | labelTwice
  | labelCrossesBlock
  | functionInFunction
  | strayParameter
  | noOpenFunction
  | blockInFunctionEnd
  | neverClosed (kind : BlockKind)
  | undefinedLabel
  deriving DecidableEq

def FlowReason.text : FlowReason → String
  | .testNotUsed => "cmp not followed by a conditional jump"
  | .jumpWithoutTest => "conditional jump without a preceding cmp"
  | .backwardBranch => "conditional jump to an earlier label"
  | .labelTwice => "label defined twice"
  | .labelCrossesBlock => "label crosses an open block"
  | .functionInFunction => "function opened inside a function"
  | .strayParameter => "parameter outside a function header"
  | .noOpenFunction => "no open function"
  | .blockInFunctionEnd => "block still open at end of function"
  | .neverClosed kind => kind.text ++ " block never closed"
  | .undefinedLabel => "jump to a label that is never defined"

inductive Stage where
  | construction
  | validation
  | lowering
  deriving DecidableEq

def Stage.text : Stage → String
  | .construction => "syntax tree construction"
  | .validation => "syntax tree validation"
  | .lowering => "lowering"

inductive Complaint where
  | missingField
  | notString
  | brokenString
  | notList
  | notRecord (name : String)
  | notOpcode
  | notOperandKind
  | notInteger
  | fractionalInteger
  | infiniteInteger
  | unreadableInteger
  | oversizedInteger
  deriving DecidableEq

/-- Choices in quotes, a comma between them and `or` before the last one. -/
def alternatives : List String → String
  | [] => ""
  | [a] => "'" ++ a ++ "'"
  | [a, b] => "'" ++ a ++ "' or '" ++ b ++ "'"
  | a :: rest => "'" ++ a ++ "', " ++ alternatives rest

def Complaint.message : Complaint → String
  | .missingField => "Field required"
  | .notString => "Input should be a valid string"
  | .brokenString =>
    "Input should be a valid string, unable to parse raw data as a unicode string"
  | .notList => "Input should be a valid list"
  | .notRecord name => "Input should be a valid dictionary or instance of " ++ name
  | .notOpcode => "Input should be " ++ alternatives (Opcode.all.map Opcode.name)
  | .notOperandKind => "Input should be " ++ alternatives ["const", "var", "temp"]
  | .notInteger => "Input should be a valid integer"
  | .fractionalInteger => "Input should be a valid integer, got a number with a fractional part"
  | .infiniteInteger => "Input should be a finite number"
  | .unreadableInteger => "Input should be a valid integer, unable to parse string as an integer"
  | .oversizedInteger => "Unable to parse input string as an integer, exceeded maximum size"

inductive SyntaxDetail where
  | missing (kind : String)
  | unexpectedInput
  | malformedTree (complaint : Complaint)
  deriving DecidableEq

def SyntaxDetail.text : SyntaxDetail → String
  | .missing kind => ": missing " ++ kind
  | .unexpectedInput => ": unexpected input"
  | .malformedTree complaint => ": malformed syntax tree: " ++ complaint.message

inductive EscapeReason where
  | cut (form : String)
  | beyondUnicode
  | malformedName
  | unknownName
  | loneBackslash
  deriving DecidableEq

def EscapeReason.text : EscapeReason → String
  | .cut form => "truncated " ++ form ++ " escape"
  | .beyondUnicode => "illegal Unicode character"
  | .malformedName => "malformed \\N character escape"
  | .unknownName => "unknown Unicode character name"
  | .loneBackslash => "\\ at end of string"

inductive Fault where
  | invalid (complaint : Complaint)
  | unknownBackend (name : String)
  | unknownOpcode (name : String)
  | digitLimit (digits : Option Nat)
  | outsideUnicode
  | notInBase (base : Nat) (text : String)
  | notNumeral (text : String)
  | oversizedPoint
  | badEscape (first : Nat) (stop : Nat) (reason : EscapeReason)
  | undecodable (fault : Text.Utf8Fault)
  | unencodable (point : Nat) (position : Nat) (count : Nat)
  | missingKey (key : String)
  | notSubscriptable (kind : String)
  | indexedString
  | indexedList
  | unhashable (kind : String)
  | missingItem
  | tooFewOperands (count : Nat)
  | tooManyOperands
  | namelessParameter (index : Nat)
  | incomparableLabels
  | missingChild
  | noBody (kind : String)
  | noLength (kind : String)
  | nullInPath
  | depthExceeded

def Fault.message : Fault → String
  | .invalid complaint => complaint.message
  | .unknownBackend name => "Unsupported backend: " ++ name
  | .unknownOpcode name => name ++ " is not a valid Opcode"
  | .digitLimit digits =>
    let counted := match digits with
      | some n => s!": value has {n} digits"
      | none => ""
    s!"Exceeds the limit ({Numeral.digitLimit} digits) for integer string conversion" ++ counted ++
      "; use sys.set_int_max_str_digits() to increase the limit"
  | .outsideUnicode => "chr() arg not in range(0x110000)"
  | .notInBase base text =>
    s!"invalid literal for int() with base {base}: " ++
      ((Text.display (Text.ofString text)).take 200).toString
  | .notNumeral text =>
    "could not convert string to float: " ++ Text.display (Text.ofString text)
  | .oversizedPoint => "Python int too large to convert to C int"
  | .badEscape first stop reason =>
    let bytes :=
      if stop = first + 1 then s!"byte 0x5c in position {first}"
      else s!"bytes in position {first}-{stop - 1}"
    "'unicodeescape' codec can't decode " ++ bytes ++ ": " ++ reason.text
  | .undecodable fault => fault.message
  | .unencodable point position count =>
    let form := String.ofList (Text.unitEscape point)
    let points :=
      if count = 1 then s!"character '{form}' in position {position}"
      else s!"characters in position {position}-{position + count - 1}"
    "'utf-8' codec can't encode " ++ points ++ ": surrogates not allowed"
  | .missingKey key => Text.display (Text.ofString key)
  | .notSubscriptable kind => "'" ++ kind ++ "' object is not subscriptable"
  | .indexedString => "string indices must be integers, not 'str'"
  | .indexedList => "list indices must be integers or slices, not str"
  | .unhashable kind => "unhashable type: '" ++ kind ++ "'"
  | .missingItem => "list index out of range"
  | .tooFewOperands count => s!"not enough values to unpack (expected 2, got {count})"
  | .tooManyOperands => "too many values to unpack (expected 2)"
  | .namelessParameter index =>
    s!"sequence item {index}: expected str instance, NoneType found"
  | .incomparableLabels => "'<' not supported between instances of 'str' and 'NoneType'"
  | .missingChild => "'NoneType' object has no attribute 'type'"
  | .noBody kind => "'" ++ kind ++ "' object has no attribute 'body'"
  | .noLength kind => "object of type '" ++ kind ++ "' has no len()"
  | .nullInPath => "embedded null byte"
  | .depthExceeded => "maximum recursion depth exceeded"

inductive Error where
  | unsupportedConstruct (kind : String) (loc : Option Location) (detail : String)
  | unsupportedOperator (operator : String) (kind : String) (loc : Option Location)
  | invalidTarget (kind : String) (loc : Option Location)
  | malformedFlow (place : String) (reason : FlowReason)
  | badSyntax (detail : SyntaxDetail) (loc : Option Location)
  | tooDeep (stage : Stage)
  | fault (f : Fault)

namespace Error

/-- The tag of an error that a service reports; faults have none. -/
def tag? : Error → Option String
  | .unsupportedConstruct .. => some "UnsupportedConstruct"
  | .unsupportedOperator .. => some "UnsupportedOperator"
  | .invalidTarget .. => some "InvalidAssignmentTarget"
  | .malformedFlow .. => some "MalformedControlFlow"
  | .badSyntax .. => some "SyntaxError"
  | .tooDeep .. => some "NestingTooDeep"
  | .fault _ => none

def message : Error → String
  | .unsupportedConstruct kind loc detail =>
    let note := if detail = "" then "" else " (" ++ detail ++ ")"
    "Unsupported construct: " ++ kind ++ note ++ Location.suffixText loc
  | .unsupportedOperator operator kind loc =>
    "Unsupported operator '" ++ operator ++ "' in " ++ kind ++ Location.suffixText loc
  | .invalidTarget kind loc =>
    "Invalid assignment target: " ++ kind ++ " (expected a variable name)" ++
      Location.suffixText loc
  | .malformedFlow place reason => "Malformed control flow at '" ++ place ++ "': " ++ reason.text
  | .badSyntax detail loc => "Syntax error" ++ detail.text ++ Location.suffixText loc
  | .tooDeep stage => "Input nested too deeply to translate (during " ++ stage.text ++ ")"
  | .fault f => f.message

def loc? : Error → Option Location
  | .unsupportedConstruct _ loc _ => loc
  | .unsupportedOperator _ _ loc => loc
  | .invalidTarget _ loc => loc
  | .badSyntax _ loc => loc
  | _ => none

/-- The message that is reported for an error. It is written together with the error, which ends in
a fault if a number of its span has too many digits. -/
def report (e : Error) : Except Fault String :=
  match e with
  | .fault f => .error f
  | e => if e.loc?.all Location.isWritable then .ok e.message else .error (.digitLimit none)

end Error
end Sil
