import Sil.Concrete.Escape
import Sil.Concrete.KindName
import Sil.Concrete.Number
import Sil.Concrete.Tree
import Sil.Limits

/-!
The syntax tree of a concrete tree. Comments and parentheses are dropped, and a node outside the
supported kinds keeps its kind's name only. Main definition: `Node.ofConcrete`.
-/
namespace Sil.Concrete

/-- The bytes of a source between two offsets; an offset below zero counts from the end. -/
def slice (source : ByteArray) (start stop : Int) : List UInt8 :=
  let clamp (n : Int) : Nat :=
    min source.size (if n < 0 then n + source.size else n).toNat
  (source.extract (clamp start) (clamp stop)).toList

def text (source : ByteArray) (t : ConcreteTree) : Except Fault String :=
  match Text.decodeUtf8 (slice source t.extent.startByte t.extent.endByte) with
  | .ok cs => .ok (String.ofList cs)
  | .error f => .error (.undecodable f)

def orFault {α : Type} : Except Fault α → Except Error α
  | .ok a => .ok a
  | .error f => .error (.fault f)

def need : Option ConcreteTree → Except Error ConcreteTree
  | some t => .ok t
  | none => .error (.fault .missingChild)

/-- The nodes in a list of statements: comments and empty statements are none. -/
def statementNodes (t : ConcreteTree) : List ConcreteTree :=
  t.namedChildren.filter fun c => !c.isComment && c.kind != "empty_statement"

/-- The clause of a loop header, without the statement that it may be wrapped in. -/
def loopClause (clause : Option ConcreteTree) : Except Error (Option ConcreteTree) :=
  match clause with
  | none => .ok none
  | some t =>
    if t.kind = "empty_statement" || t.kind = ";" then .ok none
    else if t.kind = "expression_statement" then do return some (← need t.firstPart?)
    else .ok (some t)

def stringValue (source : ByteArray) : List ConcreteTree → Except Error Text
  | [] => .ok []
  | part :: rest => do
    let written ← orFault (text source part)
    let points ←
      if part.kind = "escape_sequence" then orFault (Escape.decode written)
      else pure (Text.ofString written)
    return points ++ (← stringValue source rest)

def isLogical (operator : String) : Bool :=
  operator = "&&" || operator = "||" || operator = "??"

def optional (build : ConcreteTree → Except Error Node) :
    Option ConcreteTree → Except Error (Option Node)
  | none => .ok none
  | some t => do return some (← build t)

/-- The node of a concrete tree, given how its children become nodes. -/
def nodeWith (build : ConcreteTree → Except Error Node) (source : ByteArray) (t : ConcreteTree) :
    Except Error Node := do
  let loc := some t.location
  match t.kind with
  | "program" => return .program loc (← (statementNodes t).mapM build)
  | "statement_block" => return .block loc (← (statementNodes t).mapM build)
  | "expression_statement" => return .expression loc (← build (← need t.firstPart?))
  | "lexical_declaration" | "variable_declaration" =>
    match t.children with
    | [] => throw (.fault .missingItem)
    | word :: _ =>
      let kind ← orFault (text source word)
      let declarators := t.namedChildren.filter (·.kind == "variable_declarator")
      return .declaration loc kind (← declarators.mapM build)
  | "variable_declarator" =>
    let id ← build (← need (t.inField? "name"))
    return .declarator loc id (← optional build (t.inField? "value"))
  | "if_statement" =>
    let alternative := (t.inField? "alternative").bind fun a =>
      if a.kind = "else_clause" then a.firstPart? else some a
    let test ← build (← need (t.inField? "condition"))
    let consequent ← build (← need (t.inField? "consequence"))
    return .conditional loc test consequent (← optional build alternative)
  | "while_statement" =>
    let test ← build (← need (t.inField? "condition"))
    return .whileLoop loc test (← build (← need (t.inField? "body")))
  | "for_statement" =>
    let init ← optional build (← loopClause (t.inField? "initializer"))
    let test ← optional build (← loopClause (t.inField? "condition"))
    let update ← optional build (← loopClause (t.inField? "increment" <|> t.inField? "update"))
    return .forLoop loc init test update (← build (← need (t.inField? "body")))
  | "function_declaration" =>
    let formals : List ConcreteTree := match t.inField? "parameters" with
      | some list => list.namedChildren.filter (!·.isComment)
      | none => []
    let params ← formals.mapM build
    let id ← build (← need (t.inField? "name"))
    return .function loc id params (← build (← need (t.inField? "body")))
  | "return_statement" => return .ret loc (← optional build t.firstPart?)
  | "identifier" | "undefined" => return .identifier loc (← orFault (text source t))
  | "number" => orFault do NumberLiteral.node (← text source t) t.location
  | "string" =>
    let value ← stringValue source t.namedChildren
    return .literal loc (.str value) (← orFault (text source t))
  | "true" => return .literal loc (.bool true) "true"
  | "false" => return .literal loc (.bool false) "false"
  | "null" => return .literal loc .null "null"
  | "binary_expression" =>
    let word ← match t.inField? "operator" <|> t.children[1]? with
      | some word => pure word
      | none => throw (.fault .missingItem)
    let operator ← orFault (text source word)
    let left ← build (← need (t.inField? "left"))
    let right ← build (← need (t.inField? "right"))
    return if isLogical operator then .logical loc operator left right
      else .binary loc operator left right
  | "assignment_expression" | "augmented_assignment_expression" =>
    let operator ← match t.inField? "operator" with
      | some word => orFault (text source word)
      | none => pure "="
    let left ← build (← need (t.inField? "left"))
    return .assignment loc operator left (← build (← need (t.inField? "right")))
  | "parenthesized_expression" => build (← need t.firstPart?)
  | kind => return .foreign loc (kindName kind)

/-- The node of a concrete tree below which `room` more levels may nest. -/
def node (source : ByteArray) : Nat → ConcreteTree → Except Error Node
  | 0, _ => .error (.tooDeep .construction)
  | room + 1, t => nodeWith (node source room) source t

def complaint (bad : ConcreteTree) : SyntaxDetail :=
  if bad.standing.isMissing then .missing bad.kind else .unexpectedInput

/-- The error that a tree with an error in it is refused with. One that is too deep to be found is a
fault. -/
def brokenTree (room : Nat) (root : ConcreteTree) : Error :=
  match root.firstError? room with
  | some bad => .badSyntax (complaint bad) (some bad.location)
  | none => .fault .depthExceeded

def withBody (tree : Node) : Except Error Node :=
  match tree with
  | .program .. | .block .. => .ok tree
  | .whileLoop _ _ body => .error (.fault (.noLength (className body)))
  | .forLoop _ _ _ _ body => .error (.fault (.noLength (className body)))
  | .function _ _ _ body => .error (.fault (.noLength (className body)))
  | _ => .error (.fault (.noBody (className tree)))
where
  className : Node → String
    | .foreign .. => "OpaqueNode"
    | n => n.kind

end Sil.Concrete

namespace Sil

/-- The syntax tree of a concrete tree, which must be that of a program. -/
def Node.ofConcrete (limits : Limits) (source : ByteArray) (root : ConcreteTree) :
    Except Error Node := do
  if root.hasError then throw (Concrete.brokenTree limits.search root)
  Concrete.withBody (← Concrete.node source limits.construction root)

end Sil
