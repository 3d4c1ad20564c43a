/-!
The operations of SIL, a flat three-address code, and the families they belong to.
-/
namespace Sil

inductive BinaryOp where
  | add
  | sub
  | mul
  | div
  | lt
  | gt
  | lte
  | gte
  | eq
  | neq
  deriving DecidableEq

inductive Opcode where
  | decl
  | mov
  | binary (op : BinaryOp)
  | cmp
  | jumpIfFalse
  | jumpIfTrue
  | jump
  | func
  | param
  | endFunc
  | ret
  | label
  deriving DecidableEq

namespace BinaryOp

def all : List BinaryOp := [.add, .sub, .mul, .div, .lt, .gt, .lte, .gte, .eq, .neq]

def name : BinaryOp → String
  | .add => "ADD"
  | .sub => "SUB"
  | .mul => "MUL"
  | .div => "DIV"
  | .lt => "LT"
  | .gt => "GT"
  | .lte => "LTE"
  | .gte => "GTE"
  | .eq => "EQ"
  | .neq => "NEQ"

/-- The operator that is written for an operation, in the source and in both target languages. -/
def symbol : BinaryOp → String
  | .add => "+"
  | .sub => "-"
  | .mul => "*"
  | .div => "/"
  | .lt => "<"
  | .gt => ">"
  | .lte => "<="
  | .gte => ">="
  | .eq => "=="
  | .neq => "!="

def ofSymbol? (s : String) : Option BinaryOp := all.find? (·.symbol == s)

def isComparison : BinaryOp → Bool
  | .lt | .gt | .lte | .gte | .eq | .neq => true
  | .add | .sub | .mul | .div => false

end BinaryOp

namespace Opcode

/-- All operations in the order in which they are listed to a reader. -/
def all : List Opcode :=
  [.decl, .mov] ++ BinaryOp.all.map .binary ++
    [.cmp, .jumpIfFalse, .jumpIfTrue, .jump, .func, .param, .endFunc, .ret, .label]

def name : Opcode → String
  | .decl => "DECL"
  | .mov => "MOV"
  | .binary op => op.name
  | .cmp => "CMP"
  | .jumpIfFalse => "JMP_IF_FALSE"
  | .jumpIfTrue => "JMP_IF_TRUE"
  | .jump => "JMP"
  | .func => "FUNC"
  | .param => "PARAM"
  | .endFunc => "ENDFUNC"
  | .ret => "RET"
  | .label => "LABEL"

def mnemonic (o : Opcode) : String := o.name.map Char.toLower

def ofName? (s : String) : Option Opcode := all.find? (·.name == s)

def isConditionalJump : Opcode → Bool
  | .jumpIfFalse | .jumpIfTrue => true
  | _ => false

end Opcode
end Sil
