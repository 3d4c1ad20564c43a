import Sil.Record
import Sil.Syntax.Node

/-!
Reading a syntax tree from ESTree JSON. All parts of a node are checked before the first complaint
about it is reported, but a fault in a place where a value has to be looked into stops the reading
at once. A path of more than 254 nodes is too deep.
-/
namespace Sil

/-- The outcome of a check: what the value describes, or the first complaint about it, with whether
some part of it was too deep to be looked at. -/
inductive Checked (α : Type) where
  | valid (a : α)
  | invalid (first : Complaint) (tooDeep : Bool)

namespace Checked

def map {α β : Type} (f : α → β) : Checked α → Checked β
  | .valid a => .valid (f a)
  | .invalid c deep => .invalid c deep

def ap {α β : Type} (f : Checked (α → β)) (x : Checked α) : Checked β :=
  match f, x with
  | .valid f, .valid a => .valid (f a)
  | .invalid c deep, .valid _ => .invalid c deep
  | .valid _, .invalid c deep => .invalid c deep
  | .invalid c deep, .invalid _ deeper => .invalid c (deep || deeper)

instance : Applicative Checked where
  pure := .valid
  seq f x := ap f (x ())

def ofExcept {α : Type} : Except Complaint α → Checked α
  | .ok a => .valid a
  | .error c => .invalid c false

end Checked

namespace Estree

/-- How many nodes a path from the root may have. -/
def pathLimit : Nat := 254

abbrev Fields := List (Text × Json)

def field? (fields : Fields) (key : String) : Option Json := Json.lookup (Text.ofString key) fields

def member (key : String) : Json → Except Fault Json
  | .obj fields =>
    match field? fields key with
    | some j => .ok j
    | none => .error (.missingKey key)
  | .arr _ => .error .indexedList
  | .str _ => .error .indexedString
  | .null => .error (.notSubscriptable "NoneType")
  | .bool _ => .error (.notSubscriptable "bool")
  | .int _ => .error (.notSubscriptable "int")
  | .float _ => .error (.notSubscriptable "float")

/-- A span given by its two ends; without an end it is empty. All four numbers are looked up before
the first of them is checked. -/
def spanOfEnds (start stop : Json) : Except Fault (Checked Location) := do
  let startLine ← member "line" start
  let startColumn ← member "column" start
  let endLine ← member "line" stop
  let endColumn ← member "column" stop
  return .ofExcept do
    return ⟨← startLine.asInteger, ← startColumn.asInteger, ← endLine.asInteger,
      ← endColumn.asInteger⟩

def span (fields : Fields) : Except Fault (Checked (Option Location)) :=
  match field? fields "loc" with
  | none => .ok (.valid none)
  | some .null => .ok (.valid none)
  | some (.obj loc) =>
    match field? loc "start" with
    | some start => do return (← spanOfEnds start ((field? loc "end").getD start)).map some
    | none => .ok ((Checked.ofExcept (Location.ofFields loc)).map some)
  | some _ => .ok (.invalid (.notRecord "SourceLocation") false)

/-- The kind of node that a value is read as: `none` for a node of a foreign kind. -/
def kind? : Json → Except Fault (Option String)
  | .obj fields =>
    match field? fields "type" with
    | some (.arr _) => .error (.unhashable "list")
    | some (.obj _) => .error (.unhashable "dict")
    | some (.str s) =>
      match s.toString? with
      | none => .ok none
      | some kind =>
        if kind = "Literal" && ((field? fields "regex").isSome || (field? fields "bigint").isSome)
        then .ok none
        else .ok (if Node.supportedKinds.contains kind then some kind else none)
    | _ => .ok none
  | _ => .ok none

def text (fields : Fields) (key : String) (default : Option String) : Checked String :=
  match field? fields key, default with
  | some j, _ => .ofExcept j.asString
  | none, some s => .valid s
  | none, none => .invalid .missingField false

def all {α : Type} (read : Json → Except Fault (Checked α)) :
    List Json → Except Fault (Checked (List α))
  | [] => .ok (.valid [])
  | j :: rest => do
    let item ← read j
    let items ← all read rest
    return List.cons <$> item <*> items

def nodes (read : Json → Except Fault (Checked Node)) (fields : Fields) (key : String) :
    Except Fault (Checked (List Node)) :=
  match field? fields key with
  | none => .ok (.valid [])
  | some (.arr items) => all read items
  | some _ => .ok (.invalid .notList false)

def child (read : Json → Except Fault (Checked Node)) (fields : Fields) (key : String) :
    Except Fault (Checked Node) :=
  match field? fields key with
  | none => .ok (.invalid .missingField false)
  | some j => read j

def child? (read : Json → Except Fault (Checked Node)) (fields : Fields) (key : String) :
    Except Fault (Checked (Option Node)) :=
  match field? fields key with
  | none => .ok (.valid none)
  | some .null => .ok (.valid none)
  | some j => do return (← read j).map some

/-- The parts of a node of a supported kind, in the order in which they are checked. -/
def supported (read : Json → Except Fault (Checked Node)) (kind : String) (fields : Fields) :
    Except Fault (Checked Node) := do
  let loc ← span fields
  match kind with
  | "Program" => return Node.program <$> loc <*> (← nodes read fields "body")
  | "VariableDeclaration" =>
    return Node.declaration <$> loc <*> text fields "kind" (some "let") <*>
      (← nodes read fields "declarations")
  | "VariableDeclarator" =>
    return Node.declarator <$> loc <*> (← child read fields "id") <*> (← child? read fields "init")
  | "Literal" =>
    return Node.literal <$> loc <*> .valid ((field? fields "value").getD .null) <*>
      text fields "raw" (some "")
  | "Identifier" => return Node.identifier <$> loc <*> text fields "name" none
  | "BinaryExpression" =>
    return Node.binary <$> loc <*> text fields "operator" none <*> (← child read fields "left") <*>
      (← child read fields "right")
  | "LogicalExpression" =>
    return Node.logical <$> loc <*> text fields "operator" none <*> (← child read fields "left") <*>
      (← child read fields "right")
  | "AssignmentExpression" =>
    return Node.assignment <$> loc <*> text fields "operator" (some "=") <*>
      (← child read fields "left") <*> (← child read fields "right")
  | "ExpressionStatement" => return Node.expression <$> loc <*> (← child read fields "expression")
  | "BlockStatement" => return Node.block <$> loc <*> (← nodes read fields "body")
  | "IfStatement" =>
    return Node.conditional <$> loc <*> (← child read fields "test") <*>
      (← child read fields "consequent") <*> (← child? read fields "alternate")
  | "WhileStatement" =>
    return Node.whileLoop <$> loc <*> (← child read fields "test") <*> (← child read fields "body")
  | "ForStatement" =>
    return Node.forLoop <$> loc <*> (← child? read fields "init") <*>
      (← child? read fields "test") <*> (← child? read fields "update") <*>
      (← child read fields "body")
  | "FunctionDeclaration" =>
    return Node.function <$> loc <*> (← child read fields "id") <*>
      (← nodes read fields "params") <*> (← child read fields "body")
  | "ReturnStatement" => return Node.ret <$> loc <*> (← child? read fields "argument")
  | _ => return (fun l => Node.foreign l kind) <$> loc

/-- A node of a foreign kind: only its kind and its span are looked at. -/
def foreign (fields : Fields) : Except Fault (Checked Node) := do
  let kind := text fields "type" none
  let loc ← span fields
  return (fun k l => Node.foreign l k) <$> kind <*> loc

/-- A node on a path that may have `room` more nodes. -/
def node : Nat → Json → Except Fault (Checked Node)
  | 0, j => do
    let _ ← kind? j
    return .invalid (.notRecord "OpaqueNode") true
  | room + 1, j => do
    match ← kind? j, j with
    | some kind, .obj fields => supported (node room) kind fields
    | none, .obj fields => foreign fields
    | _, _ => return .invalid (.notRecord "OpaqueNode") false

end Estree

def Node.ofEstree (j : Json) : Except Error Node :=
  match Estree.node Estree.pathLimit j with
  | .error f => .error (.fault f)
  | .ok (.valid n) => .ok n
  | .ok (.invalid _ true) => .error (.tooDeep .validation)
  | .ok (.invalid c false) => .error (.badSyntax (.malformedTree c) none)

end Sil
