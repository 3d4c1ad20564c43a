import Sil.Emission.Backend

/-!
A line of target text: how deep it stands, and what it says. Lines are kept as what they say, and
each target language has its own words for it.
-/
namespace Sil

inductive Source where
  | copy (operand : Operand)
  | operation (op : BinaryOp) (left right : Operand)

inductive Content where
  | declare (type : ValueType) (name : Name)
  | assign (dest : Name) (source : Source)
  | openBranch (whenFalse : Bool) (test : Operand)
  | openFunction (name : Name) (params : List Name)
  | ret (value : Option Operand) (inFunction : Bool)
  | labelMark (label : Name)
  | jumpMark (label : Name)
  | filler
  | close (kind : BlockKind)

namespace Content

/-- Statements count as the content of a block; marks, fillers and closers do not. -/
def isStatement : Content → Bool
  | .declare .. | .assign .. | .openBranch .. | .openFunction .. | .ret .. => true
  | .labelMark _ | .jumpMark _ | .filler | .close _ => false

def sourceText (b : Backend) : Source → String
  | .copy operand => b.operand operand
  | .operation op left right => b.operand left ++ " " ++ op.symbol ++ " " ++ b.operand right

def commaSeparated (parts : List String) : String := String.intercalate ", " parts

def text (b : Backend) : Content → String
  | .declare type name =>
    match b with
    | .python => name.shown ++ " = None"
    | .cpp => type.text ++ " " ++ name.shown ++ ";"
  | .assign dest source => dest.shown ++ " = " ++ sourceText b source ++ b.terminator
  | .openBranch whenFalse test =>
    match b with
    | .python => (if whenFalse then "if not " else "if ") ++ b.operand test ++ ":"
    | .cpp => (if whenFalse then "if (!" else "if (") ++ b.operand test ++ ") \x7b"
  | .openFunction name params =>
    match b with
    | .python => "def " ++ name.shown ++ "(" ++ commaSeparated (params.map Name.shown) ++ "):"
    | .cpp =>
      "auto " ++ name.shown ++ " = [&](" ++
        commaSeparated (params.map fun p => "auto " ++ p.shown) ++ ") \x7b"
  | .ret value inFunction =>
    match value, b with
    | some operand, _ => "return " ++ b.operand operand ++ b.terminator
    | none, .python => "return"
    | none, .cpp => if inFunction then "return;" else "return 0;"
  | .labelMark label => b.commentMark ++ " Label " ++ label.shown
  | .jumpMark label => b.commentMark ++ " Jump to " ++ label.shown
  | .filler => "pass"
  | .close kind => (b.closer kind).getD ""

end Content

structure Line where
  depth : Nat
  content : Content

namespace Line

def indentation (indent : String) (depth : Nat) : String :=
  String.join (List.replicate depth indent)

def text (b : Backend) (indent : String) (l : Line) : String :=
  indentation indent l.depth ++ l.content.text b

end Line
end Sil
