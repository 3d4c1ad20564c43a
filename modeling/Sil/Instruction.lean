import Sil.Error
import Sil.Name

/-!
SIL instructions. An instruction is a record of an operation and the fields that any operation may
have, so that a stream from outside can leave out what its operation needs; code made here is built
with one function per operation.
-/
namespace Sil

/-- Where the value of an expression lives: a literal with its spelling, a variable or a
temporary. -/
inductive Operand where
  | const (value : Json) (raw : String)
  | var (name : Name)
  | temp (name : Name)

namespace Operand

def spell : Json → String
  | .null => "null"
  | .bool b => if b then "true" else "false"
  | .str s => s.quoted
  | v => v.display

/-- The literal with the given value, spelled as in its source or, without a source, by its
value. -/
def literal (value : Json) (raw : String) : Except Error Operand :=
  if raw ≠ "" then .ok (.const value raw)
  else if value.isWritable then .ok (.const value (spell value))
  else .error (.fault (.digitLimit none))

/-- The name that an operand reads, if it is no literal. -/
def name? : Operand → Option Name
  | .const .. => none
  | .var name => some name
  | .temp name => some name

def text : Operand → String
  | .const _ raw => raw
  | .var name => name.shown
  | .temp name => name.shown

def isWritable : Operand → Bool
  | .const .. => true
  | .var name => name.isWritable
  | .temp name => name.isWritable

end Operand

structure Instruction where
  opcode : Opcode
  name : Option String := none
  dest : Option String := none
  operands : List Operand := []
  label : Option String := none
  location : Location := Location.unknown

namespace Instruction

def decl (name : String) (loc : Location) : Instruction :=
  { opcode := .decl, name := some name, location := loc }

def mov (dest : String) (source : Operand) (loc : Location) : Instruction :=
  { opcode := .mov, dest := some dest, operands := [source], location := loc }

/-- `add dest, left, right` and its like -/
def binary (op : BinaryOp) (dest : String) (left right : Operand) (loc : Location) : Instruction :=
  { opcode := .binary op, dest := some dest, operands := [left, right], location := loc }

def cmp (source : Operand) (loc : Location) : Instruction :=
  { opcode := .cmp, operands := [source], location := loc }

def jumpIfFalse (label : String) (loc : Location) : Instruction :=
  { opcode := .jumpIfFalse, label := some label, location := loc }

def jumpIfTrue (label : String) (loc : Location) : Instruction :=
  { opcode := .jumpIfTrue, label := some label, location := loc }

def jump (label : String) (loc : Location) : Instruction :=
  { opcode := .jump, label := some label, location := loc }

/-- `label:`, which has no place in the source -/
def mark (label : String) : Instruction := { opcode := .label, label := some label }

def func (name : String) (loc : Location) : Instruction :=
  { opcode := .func, name := some name, location := loc }

def param (name : String) (loc : Location) : Instruction :=
  { opcode := .param, name := some name, location := loc }

def endFunc (loc : Location) : Instruction := { opcode := .endFunc, location := loc }

def ret (value : Option Operand) (loc : Location) : Instruction :=
  { opcode := .ret, operands := value.toList, location := loc }

def fieldTexts (i : Instruction) : List String :=
  i.name.toList ++ i.dest.toList ++ i.operands.map Operand.text ++ i.label.toList

def text (i : Instruction) : String :=
  if i.opcode = .label then (Name.ofOption i.label).shown ++ ":"
  else if i.fieldTexts.isEmpty then i.opcode.mnemonic
  else i.opcode.mnemonic ++ " " ++ String.intercalate ", " i.fieldTexts

def located (i : Instruction) : String :=
  if i.location.isUnknown then i.text else i.text ++ "  # " ++ i.location.text

def isWritable (i : Instruction) : Bool :=
  i.opcode == .label || i.operands.all Operand.isWritable

def listing (is : List Instruction) : String := String.intercalate "\n" (is.map text)

end Instruction
end Sil
