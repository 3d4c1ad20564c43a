import Sil.Instruction

/-!
The two target languages and how each of them writes literals, types and line marks.
-/
namespace Sil

inductive Backend where
  | python
  | cpp
  deriving DecidableEq

/-- The type that a declaration gives a name; the untyped language has one type without a
spelling. -/
inductive ValueType where
  | untyped
  | int
  | double
  | bool
  | string
  | pointer
  deriving DecidableEq

namespace ValueType

def text : ValueType → String
  | .untyped => ""
  | .int => "int"
  | .double => "double"
  | .bool => "bool"
  | .string => "std::string"
  | .pointer => "void*"

def ofValue : Json → ValueType
  | .null => .pointer
  | .bool _ => .bool
  | .str _ => .string
  | .float _ => .double
  | _ => .int

end ValueType

namespace Backend

def all : List Backend := [.python, .cpp]

def name : Backend → String
  | .python => "python"
  | .cpp => "cpp"

def ofName? (s : String) : Option Backend := all.find? (·.name == s)

/-- The depth of a line that stands in no block. -/
def baseDepth : Backend → Nat
  | .python => 0
  | .cpp => 1

def commentMark : Backend → String
  | .python => "#"
  | .cpp => "//"

def terminator : Backend → String
  | .python => ""
  | .cpp => ";"

/-- The type of a name that is read before anything is known about it. -/
def defaultType : Backend → ValueType
  | .python => .untyped
  | .cpp => .int

def literal (b : Backend) (value : Json) : String :=
  match b, value with
  | .python, .str s => s.quoted
  | .cpp, .str s => "std::string(" ++ s.quoted ++ ")"
  | .cpp, .null => "nullptr"
  | .cpp, .bool v => if v then "true" else "false"
  | _, v => v.display

def operand (b : Backend) : Operand → String
  | .const value _ => b.literal value
  | .var name => name.shown
  | .temp name => name.shown

def closer : Backend → BlockKind → Option String
  | .python, _ => none
  | .cpp, .branch => some "\x7d"
  | .cpp, .function => some "\x7d;"

def fillsEmptyBlocks : Backend → Bool
  | .python => true
  | .cpp => false

end Backend

def Operand.isSpellable : Operand → Bool
  | .const value _ => value.isWritable
  | .var name => name.isWritable
  | .temp name => name.isWritable

end Sil
