import Mathlib
import Sil.Proofs.Refusals
import Sil.Service.Request

/-!
What the two readers of syntax trees stop at. Reading ESTree JSON looks at every node that it can
get to, so it ends in a fault if one of these nodes has a type that cannot be looked up or a span
with a missing number. Building from a concrete tree goes through the children in their order, and
ends with the first one that is missing, too deep, or without a value.
-/
namespace Sil

namespace Estree

def listed (fields : Fields) (key : String) : List Json :=
  match field? fields key with
  | some (.arr items) => items
  | _ => []

def held (fields : Fields) (key : String) : List Json := (field? fields key).toList

def heldOrNull (fields : Fields) (key : String) : List Json :=
  match field? fields key with
  | none | some .null => []
  | some j => [j]

/-- The nodes in the fields of a node, in the order in which they are read. -/
def parts (kind : String) (fields : Fields) : List Json :=
  match kind with
  | "Program" | "BlockStatement" => listed fields "body"
  | "VariableDeclaration" => listed fields "declarations"
  | "VariableDeclarator" => held fields "id" ++ heldOrNull fields "init"
  | "BinaryExpression" | "LogicalExpression" | "AssignmentExpression" =>
    held fields "left" ++ held fields "right"
  | "ExpressionStatement" => held fields "expression"
  | "IfStatement" =>
    held fields "test" ++ (held fields "consequent" ++ heldOrNull fields "alternate")
  | "WhileStatement" => held fields "test" ++ held fields "body"
  | "ForStatement" =>
    heldOrNull fields "init" ++ (heldOrNull fields "test" ++ (heldOrNull fields "update" ++
      held fields "body"))
  | "FunctionDeclaration" => held fields "id" ++ (listed fields "params" ++ held fields "body")
  | "ReturnStatement" => heldOrNull fields "argument"
  | _ => []

/-- The nodes that are read below a node: those in its fields if its kind is supported. -/
def below (fields : Fields) : List Json :=
  match kind? (.obj fields) with
  | .ok (some kind) => parts kind fields
  | _ => []

section
variable {read : Json → Except Fault (Checked Node)} {g : Json → List Fault}
  (h : ∀ j, StopsAt (read j) (g j)) (fields : Fields) (key : String)
include h

theorem child_stopsAt : StopsAt (child read fields key) ((held fields key).flatMap g) := by
  unfold child held
  cases field? fields key with
  | none => rfl
  | some j =>
    show StopsAt (read j) (g j ++ [])
    rw [List.append_nil]
    exact h j

/-- The operands of an operator are read one after the other. -/
theorem operands_stopsAt {build : Checked Node → Checked Node → Checked Node} :
    StopsAt (do return build (← child read fields "left") (← child read fields "right"))
      ((held fields "left" ++ held fields "right").flatMap g) := by
  refine (child_stopsAt h fields "left").bind_flatMap fun left => ?_
  exact (child_stopsAt h fields "right").bind_ok fun right => ⟨_, rfl⟩

end

end Estree

namespace Concrete

/-- What the building of a node comes to next: a fault, or a child to build. -/
abbrev Visit := Except Fault ConcreteTree

def stops {α : Type} (x : Except Fault α) : List Visit := (errors x).map .error

def child : Option ConcreteTree → List Visit
  | some t => [.ok t]
  | none => [.error .missingChild]

def clause : Option ConcreteTree → List Visit
  | none => []
  | some t =>
    if t.kind = "empty_statement" || t.kind = ";" then []
    else if t.kind = "expression_statement" then child t.firstPart?
    else [.ok t]

/-- A part of a string literal must be text, and its escapes must have a value. -/
def stringPart (source : ByteArray) (part : ConcreteTree) : List Visit :=
  stops do
    let written ← text source part
    if part.kind = "escape_sequence" then Escape.decode written else return []

/-- All that the building of a node comes to, in order. -/
def visits (source : ByteArray) (t : ConcreteTree) : List Visit :=
  match t.kind with
  | "program" | "statement_block" => (statementNodes t).map .ok
  | "expression_statement" | "parenthesized_expression" => child t.firstPart?
  | "lexical_declaration" | "variable_declaration" =>
    match t.children with
    | [] => [.error .missingItem]
    | word :: _ =>
      stops (text source word) ++
        (t.namedChildren.filter (·.kind == "variable_declarator")).map .ok
  | "variable_declarator" => child (t.inField? "name") ++ (t.inField? "value").toList.map .ok
  | "if_statement" =>
    let alternative := (t.inField? "alternative").bind fun a =>
      if a.kind = "else_clause" then a.firstPart? else some a
    child (t.inField? "condition") ++ (child (t.inField? "consequence") ++
      alternative.toList.map .ok)
  | "while_statement" => child (t.inField? "condition") ++ child (t.inField? "body")
  | "for_statement" =>
    clause (t.inField? "initializer") ++ (clause (t.inField? "condition") ++
      (clause (t.inField? "increment" <|> t.inField? "update") ++ child (t.inField? "body")))
  | "function_declaration" =>
    let formals : List ConcreteTree := match t.inField? "parameters" with
      | some list => list.namedChildren.filter (!·.isComment)
      | none => []
    formals.map .ok ++ (child (t.inField? "name") ++ child (t.inField? "body"))
  | "return_statement" => t.firstPart?.toList.map .ok
  | "identifier" | "undefined" => stops (text source t)
  | "number" => stops do NumberLiteral.node (← text source t) t.location
  | "string" => t.namedChildren.flatMap (stringPart source) ++ stops (text source t)
  | "binary_expression" =>
    (match t.inField? "operator" <|> t.children[1]? with
      | some word => stops (text source word)
      | none => [.error .missingItem]) ++
      (child (t.inField? "left") ++ child (t.inField? "right"))
  | "assignment_expression" | "augmented_assignment_expression" =>
    (match t.inField? "operator" with
      | some word => stops (text source word)
      | none => []) ++
      (child (t.inField? "left") ++ child (t.inField? "right"))
  | _ => []

def visitErrors (g : ConcreteTree → List Error) : Visit → List Error
  | .ok t => g t
  | .error f => [.fault f]

/-- All that is wrong with a tree that may nest so deep, in the order in which building comes to
it. -/
def refusals (source : ByteArray) : Nat → ConcreteTree → List Error
  | 0, _ => [.tooDeep .construction]
  | room + 1, t => (visits source t).flatMap (visitErrors (refusals source room))

section
variable {build : ConcreteTree → Except Error Node} {g : ConcreteTree → List Error}

theorem orFault_stopsAt {α : Type} (x : Except Fault α) :
    StopsAt (orFault x) ((stops x).flatMap (visitErrors g)) := by
  cases x <;> rfl

theorem stringValue_stopsAt (source : ByteArray) (ps : List ConcreteTree) :
    StopsAt (stringValue source ps) ((ps.flatMap (stringPart source)).flatMap (visitErrors g)) := by
  induction ps with
  | nil => rfl
  | cons part rest ih =>
    unfold stringValue stringPart
    rw [List.flatMap_cons, List.flatMap_append]
    cases text source part with
    | error f => exact .error _ _
    | ok written =>
      by_cases hescape : part.kind = "escape_sequence"
      · simp only [hescape, ↓reduceIte]
        refine (orFault_stopsAt (Escape.decode written)).bind fun points _ => ?_
        exact ih.bind_ok fun more => ⟨_, rfl⟩
      · simp only [hescape, ↓reduceIte]
        exact ih.bind_ok fun more => ⟨_, rfl⟩

variable (h : ∀ t, StopsAt (build t) (g t))
include h

theorem mapM_stopsAt (ts : List ConcreteTree) :
    StopsAt (ts.mapM build) ((ts.map Except.ok).flatMap (visitErrors g)) := by
  rw [List.flatMap_map]
  exact StopsAt.mapM fun t _ => h t

theorem optional_stopsAt (t : Option ConcreteTree) :
    StopsAt (optional build t) ((t.toList.map Except.ok).flatMap (visitErrors g)) := by
  cases t with
  | none => rfl
  | some t => exact (h t).bind fun n _ => rfl

/-- A child that has to be there is built before anything else. -/
theorem child_stopsAt {α : Type} {k : Node → Except Error α} {rest : List Visit}
    (hk : ∀ n, StopsAt (k n) (rest.flatMap (visitErrors g))) (t : Option ConcreteTree) :
    StopsAt (need t >>= fun u => build u >>= k) ((child t ++ rest).flatMap (visitErrors g)) := by
  cases t with
  | none => exact .error _ _
  | some t => exact (h t).bind fun n _ => hk n

theorem lastChild_stopsAt {α : Type} {k : Node → Except Error α} (hk : ∀ n, ∃ a, k n = .ok a)
    (t : Option ConcreteTree) :
    StopsAt (need t >>= fun u => build u >>= k) ((child t).flatMap (visitErrors g)) := by
  rw [← List.append_nil (child t)]
  refine child_stopsAt h (fun n => ?_) t
  obtain ⟨a, ha⟩ := hk n
  rw [ha]
  rfl

theorem clause_stopsAt {α : Type} {k : Option Node → Except Error α} {rest : List Visit}
    (hk : ∀ n, StopsAt (k n) (rest.flatMap (visitErrors g))) (t : Option ConcreteTree) :
    StopsAt (loopClause t >>= fun u => optional build u >>= k)
      ((clause t ++ rest).flatMap (visitErrors g)) := by
  cases t with
  | none => exact hk none
  | some t =>
    unfold loopClause clause
    dsimp only
    split
    · exact hk none
    · split
      · cases t.firstPart? with
        | none => exact .error _ _
        | some part => exact (optional_stopsAt h (some part)).bind_flatMap hk
      · exact (optional_stopsAt h (some t)).bind_flatMap hk

theorem operands_stopsAt {make : Node → Node → Node} (left right : Option ConcreteTree) :
    StopsAt (do
        let lhs ← build (← need left)
        let rhs ← build (← need right)
        return make lhs rhs)
      ((child left ++ child right).flatMap (visitErrors g)) :=
  child_stopsAt h (fun _ => lastChild_stopsAt h (fun _ => ⟨_, rfl⟩) right) left

theorem operation_stopsAt {make : String → Node → Node → Node} (source : ByteArray)
    (word : ConcreteTree) (left right : Option ConcreteTree) :
    StopsAt (do
        let operator ← orFault (text source word)
        let lhs ← build (← need left)
        let rhs ← build (← need right)
        return make operator lhs rhs)
      ((stops (text source word) ++ (child left ++ child right)).flatMap (visitErrors g)) :=
  (orFault_stopsAt (text source word)).bind_flatMap fun _ => operands_stopsAt h left right

theorem nodeWith_stopsAt (source : ByteArray) (t : ConcreteTree) :
    StopsAt (nodeWith build source t) ((visits source t).flatMap (visitErrors g)) := by
  unfold nodeWith visits
  generalize t.kind = kind
  dsimp only
  -- The kinds come in the order in which `nodeWith` has them.
  split
  case h_1 | h_2 => exact (mapM_stopsAt h _).bind_ok fun body => ⟨_, rfl⟩
  case h_3 => exact lastChild_stopsAt h (fun n => ⟨_, rfl⟩) _
  case h_4 | h_5 =>
    -- A declaration begins with its keyword, and only then come the declarators.
    cases t.children with
    | nil => exact .error _ _
    | cons word rest =>
      refine (orFault_stopsAt _).bind_flatMap fun kind => ?_
      exact (mapM_stopsAt h _).bind_ok fun declarators => ⟨_, rfl⟩
  case h_6 =>
    refine child_stopsAt h (fun id => ?_) _
    exact (optional_stopsAt h _).bind_ok fun init => ⟨_, rfl⟩
  case h_7 =>
    refine child_stopsAt h (fun test => child_stopsAt h (fun consequent => ?_) _) _
    exact (optional_stopsAt h _).bind_ok fun alternate => ⟨_, rfl⟩
  case h_8 =>
    refine child_stopsAt h (fun test => ?_) _
    exact lastChild_stopsAt h (fun n => ⟨_, rfl⟩) _
  case h_9 =>
    refine clause_stopsAt h (fun init => clause_stopsAt h (fun test => ?_) _) _
    refine clause_stopsAt h (fun update => ?_) _
    exact lastChild_stopsAt h (fun n => ⟨_, rfl⟩) _
  case h_10 =>
    -- The parameters of a function are built before its name.
    refine (mapM_stopsAt h _).bind_flatMap fun params => ?_
    refine child_stopsAt h (fun id => ?_) _
    exact lastChild_stopsAt h (fun n => ⟨_, rfl⟩) _
  case h_11 => exact (optional_stopsAt h _).bind_ok fun argument => ⟨_, rfl⟩
  case h_12 | h_13 => exact (orFault_stopsAt _).bind_ok fun name => ⟨_, rfl⟩
  case h_14 => exact orFault_stopsAt _
  case h_15 =>
    refine (stringValue_stopsAt source t.namedChildren).bind_flatMap fun value => ?_
    exact (orFault_stopsAt _).bind_ok fun raw => ⟨_, rfl⟩
  case h_16 | h_17 | h_18 => rfl
  case h_19 =>
    cases t.inField? "operator" <|> t.children[1]? with
    | none => exact .error _ _
    | some word => exact operation_stopsAt h source word _ _
  case h_20 | h_21 =>
    -- An assignment without an operator is a plain one.
    cases t.inField? "operator" with
    | none => exact operands_stopsAt h _ _
    | some word => exact operation_stopsAt h source word _ _
  case h_22 =>
    cases t.firstPart? with
    | none => exact .error _ _
    | some part =>
      show StopsAt (build part) (g part ++ [])
      rw [List.append_nil]
      exact h part
  case h_23 => split <;> simp_all [StopsAt, pure, Except.pure]

end

end Concrete
end Sil
