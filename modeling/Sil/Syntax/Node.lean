import Sil.Json.Basic
import Sil.Location

/-!
The syntax tree that is lowered. Fifteen kinds of node are supported; a node of any other kind only
remembers the name of its kind. Nothing ties a kind to a position, so every tree can be written down
and lowering says which of them are programs.
-/
namespace Sil

inductive Node where
  | program (loc : Option Location) (body : List Node)
  | declaration (loc : Option Location) (kind : String) (declarators : List Node)
  | declarator (loc : Option Location) (id : Node) (init : Option Node)
  | literal (loc : Option Location) (value : Json) (raw : String)
  | identifier (loc : Option Location) (name : String)
  | binary (loc : Option Location) (operator : String) (left right : Node)
  | logical (loc : Option Location) (operator : String) (left right : Node)
  | assignment (loc : Option Location) (operator : String) (left right : Node)
  | expression (loc : Option Location) (inner : Node)
  | block (loc : Option Location) (body : List Node)
  | conditional (loc : Option Location) (test consequent : Node) (alternate : Option Node)
  | whileLoop (loc : Option Location) (test body : Node)
  | forLoop (loc : Option Location) (init test update : Option Node) (body : Node)
  | function (loc : Option Location) (id : Node) (params : List Node) (body : Node)
  | ret (loc : Option Location) (argument : Option Node)
  | foreign (loc : Option Location) (kind : String)

namespace Node

instance : Inhabited Node := ⟨.foreign none ""⟩

def kind : Node → String
  | .program .. => "Program"
  | .declaration .. => "VariableDeclaration"
  | .declarator .. => "VariableDeclarator"
  | .literal .. => "Literal"
  | .identifier .. => "Identifier"
  | .binary .. => "BinaryExpression"
  | .logical .. => "LogicalExpression"
  | .assignment .. => "AssignmentExpression"
  | .expression .. => "ExpressionStatement"
  | .block .. => "BlockStatement"
  | .conditional .. => "IfStatement"
  | .whileLoop .. => "WhileStatement"
  | .forLoop .. => "ForStatement"
  | .function .. => "FunctionDeclaration"
  | .ret .. => "ReturnStatement"
  | .foreign _ kind => kind

def supportedKinds : List String :=
  ["Program", "VariableDeclaration", "VariableDeclarator", "Literal", "Identifier",
   "BinaryExpression", "LogicalExpression", "AssignmentExpression", "ExpressionStatement",
   "BlockStatement", "IfStatement", "WhileStatement", "ForStatement", "FunctionDeclaration",
   "ReturnStatement"]

def loc : Node → Option Location
  | .program loc _ => loc
  | .declaration loc _ _ => loc
  | .declarator loc _ _ => loc
  | .literal loc _ _ => loc
  | .identifier loc _ => loc
  | .binary loc _ _ _ => loc
  | .logical loc _ _ _ => loc
  | .assignment loc _ _ _ => loc
  | .expression loc _ => loc
  | .block loc _ => loc
  | .conditional loc _ _ _ => loc
  | .whileLoop loc _ _ => loc
  | .forLoop loc _ _ _ _ => loc
  | .function loc _ _ _ => loc
  | .ret loc _ => loc
  | .foreign loc _ => loc

/-- The place that an instruction made from a node carries. -/
def place (n : Node) : Location := n.loc.getD Location.unknown

end Node
end Sil
