import Mathlib
import Sil.Concrete.Build
import Sil.Proofs.EstreeEncoding
import Sil.Proofs.EstreeValues
import Sil.Proofs.LoweredFlow
import Sil.Proofs.Unplaced

/-!
The two ways to a syntax tree: from a concrete tree of the source text, and from ESTree JSON.
`Standard` gives the ESTree form of a concrete tree, in which comments and parentheses are gone, an
empty statement is a node of its own, and the literals and names have their JavaScript values. Main
statement: the two trees are the same up to spans if and only if no list of statements has an empty
one, no literal is a big integer, and every literal and name is one whose value is kept.
-/
namespace Sil

/-- Slots of one form; their parts are paired with each other in order. -/
def Slot.Paired {α β : Type} : Slot α → Slot β → List (α × β) → Prop
  | .child a, slot, pairs => ∃ b, slot = .child b ∧ pairs = [(a, b)]
  | .optional none, slot, pairs => slot = .optional none ∧ pairs = []
  | .optional (some a), slot, pairs => ∃ b, slot = .optional (some b) ∧ pairs = [(a, b)]
  | .list as, slot, pairs => pairs.map Prod.fst = as ∧ slot = .list (pairs.map Prod.snd)
  | .text s, slot, pairs => slot = .text s ∧ pairs = []
  | .value v, slot, pairs => slot = .value v ∧ pairs = []
  | .absent, slot, pairs => slot = .absent ∧ pairs = []

namespace Estree
variable {α β : Type} {parts : List (α × Json)}

/-- The parts of a slot can be exchanged for others with the same JSON form. -/
theorem Holds.exchange {field : Option Json} {slot : Slot α} (h : Holds field slot parts)
    (pick : α × Json → β) : ∃ slot', slot.Paired slot' (parts.map fun p => (p.1, pick p)) ∧
      Holds field slot' (parts.map fun p => (pick p, p.2)) := by
  cases slot with
  | child a =>
    obtain ⟨j, hfield, rfl⟩ := h
    exact ⟨.child (pick (a, j)), ⟨_, rfl, rfl⟩, ⟨j, hfield, rfl⟩⟩
  | optional a =>
    cases a with
    | none =>
      obtain ⟨hfield, rfl⟩ := h
      exact ⟨.optional none, ⟨rfl, rfl⟩, ⟨hfield, rfl⟩⟩
    | some a =>
      obtain ⟨j, hfield, rfl⟩ := h
      exact ⟨.optional (some (pick (a, j))), ⟨_, rfl, rfl⟩, ⟨j, hfield, rfl⟩⟩
  | list as =>
    obtain ⟨rfl, hfield⟩ := h
    refine ⟨.list (parts.map pick), ⟨?_, ?_⟩, ⟨?_, ?_⟩⟩
    · simp [Function.comp_def]
    · simp [Function.comp_def]
    · simp [Function.comp_def]
    · simpa [Function.comp_def] using hfield
  | text s =>
    obtain ⟨hfield, rfl⟩ := h
    exact ⟨.text s, ⟨rfl, rfl⟩, ⟨hfield, rfl⟩⟩
  | value v =>
    obtain ⟨hfield, rfl⟩ := h
    exact ⟨.value v, ⟨rfl, rfl⟩, ⟨hfield, rfl⟩⟩
  | absent =>
    obtain ⟨hfield, rfl⟩ := h
    exact ⟨.absent, ⟨rfl, rfl⟩, ⟨hfield, rfl⟩⟩

def SlotsPaired : List (String × Slot α) → List (String × Slot β) → List (α × β) → Prop
  | [], slots, pairs => slots = [] ∧ pairs = []
  | (key, slot) :: rest, slots, pairs => ∃ slot' rest' first later,
      slots = (key, slot') :: rest' ∧ pairs = first ++ later ∧ slot.Paired slot' first ∧
        SlotsPaired rest rest' later

/-- An object that holds parts holds whatever these are exchanged for. -/
theorem Filled.exchange {fields : Fields} {slots : List (String × Slot α)}
    (h : Filled fields slots parts) (pick : α × Json → β) :
    ∃ slots', SlotsPaired slots slots' (parts.map fun p => (p.1, pick p)) ∧
      Filled fields slots' (parts.map fun p => (pick p, p.2)) := by
  induction slots generalizing parts with
  | nil =>
    obtain rfl := h
    exact ⟨[], ⟨rfl, rfl⟩, rfl⟩
  | cons p rest ih =>
    obtain ⟨first, later, rfl, hfirst, hlater⟩ := h
    obtain ⟨slot', hpaired, hholds⟩ := hfirst.exchange pick
    obtain ⟨slots', hpaireds, hfilled⟩ := ih hlater
    refine ⟨(p.1, slot') :: slots', ⟨slot', slots', _, _, rfl, ?_, hpaired, hpaireds⟩,
      ⟨_, _, ?_, hholds, hfilled⟩⟩
    · exact List.map_append
    · exact List.map_append

end Estree

namespace Concrete
open Estree

/-- The named children of a node that are no comments. -/
def parts (t : ConcreteTree) : List ConcreteTree := t.namedChildren.filter (!·.isComment)

inductive Alternate : Option ConcreteTree → Option ConcreteTree → Prop
  | none : Alternate none none
  | wrapped {a s} (hkind : a.kind = "else_clause") (h : a.firstPart? = some s) :
      Alternate (some a) (some s)
  | plain {a} (hkind : a.kind ≠ "else_clause") : Alternate (some a) (some a)

inductive HeadClause : Option ConcreteTree → Option ConcreteTree → Prop
  | none : HeadClause none none
  | empty {a} (hkind : a.kind = "empty_statement" ∨ a.kind = ";") : HeadClause (some a) none
  | wrapped {a e} (hkind : a.kind = "expression_statement") (h : a.firstPart? = some e) :
      HeadClause (some a) (some e)
  | plain {a}
      (hkind : a.kind ≠ "empty_statement" ∧ a.kind ≠ ";" ∧ a.kind ≠ "expression_statement") :
      HeadClause (some a) (some a)

/-- The operator of an assignment; a plain one has no field for it. -/
inductive AssignmentOperator (source : ByteArray) (t : ConcreteTree) : String → Prop
  | plain (h : t.inField? "operator" = none) : AssignmentOperator source t "="
  | spelled {word operator} (h : t.inField? "operator" = some word)
      (htext : text source word = .ok operator) : AssignmentOperator source t operator

/-- The kind and the fields of the ESTree node for a node of a concrete tree, and the tokens whose
value it has: one rule for each supported kind and one for empty statements. -/
inductive Layout (source : ByteArray) (t : ConcreteTree) :
    String → List (String × Slot ConcreteTree) → List ValuedToken → Prop
  | program (hkind : t.kind = "program") : Layout source t "Program" [("body", .list (parts t))] []
  | block (hkind : t.kind = "statement_block") :
      Layout source t "BlockStatement" [("body", .list (parts t))] []
  | empty (hkind : t.kind = "empty_statement") : Layout source t "EmptyStatement" [] []
  | expression {e} (hkind : t.kind = "expression_statement") (he : t.firstPart? = some e) :
      Layout source t "ExpressionStatement" [("expression", .child e)] []
  | declaration {word rest kind}
      (hkind : t.kind = "lexical_declaration" ∨ t.kind = "variable_declaration")
      (hword : t.children = word :: rest) (htext : text source word = .ok kind)
      (hparts : ∀ c ∈ parts t, c.kind = "variable_declarator") :
      Layout source t "VariableDeclaration"
        [("kind", .text kind), ("declarations", .list (parts t))] []
  | declarator {id} (hkind : t.kind = "variable_declarator") (hid : t.inField? "name" = some id) :
      Layout source t "VariableDeclarator"
        [("id", .child id), ("init", .optional (t.inField? "value"))] []
  | conditional {test consequent alternate} (hkind : t.kind = "if_statement")
      (htest : t.inField? "condition" = some test)
      (hconsequent : t.inField? "consequence" = some consequent)
      (halternate : Alternate (t.inField? "alternative") alternate) :
      Layout source t "IfStatement"
        [("test", .child test), ("consequent", .child consequent),
          ("alternate", .optional alternate)] []
  | whileLoop {test body} (hkind : t.kind = "while_statement")
      (htest : t.inField? "condition" = some test) (hbody : t.inField? "body" = some body) :
      Layout source t "WhileStatement" [("test", .child test), ("body", .child body)] []
  | forLoop {init test update body} (hkind : t.kind = "for_statement")
      (hinit : HeadClause (t.inField? "initializer") init)
      (htest : HeadClause (t.inField? "condition") test)
      (hupdate : HeadClause ((t.inField? "increment").or (t.inField? "update")) update)
      (hbody : t.inField? "body" = some body) :
      Layout source t "ForStatement"
        [("init", .optional init), ("test", .optional test), ("update", .optional update),
          ("body", .child body)] []
  | function {id formals body} (hkind : t.kind = "function_declaration")
      (hid : t.inField? "name" = some id) (hformals : t.inField? "parameters" = some formals)
      (hbody : t.inField? "body" = some body) :
      Layout source t "FunctionDeclaration"
        [("id", .child id), ("params", .list (parts formals)), ("body", .child body)] []
  | ret (hkind : t.kind = "return_statement") :
      Layout source t "ReturnStatement" [("argument", .optional t.firstPart?)] []
  | identifier {l : WrittenName} (hkind : t.kind = "identifier" ∨ t.kind = "undefined")
      (htext : text source t = .ok l.spelling) :
      Layout source t "Identifier" [("name", .text l.name)] [.name l]
  | number {l : NumericLiteral} (hkind : t.kind = "number")
      (htext : text source t = .ok l.spelling) :
      Layout source t "Literal"
        [("value", .value l.number.asJson), ("raw", .text l.spelling), ("regex", .absent),
          ("bigint", .absent)] [.number l]
  | bigInteger {raw digits} (hkind : t.kind = "number") (htext : text source t = .ok raw)
      (hraw : raw.toList.getLast? = some 'n') :
      Layout source t "Literal" [("bigint", .value digits)] []
  | string {l : StringLiteral} {value : Text} (hstring : IsString source t l)
      (hvalue : l.Denotes value) :
      Layout source t "Literal"
        [("value", .value (.str value)), ("raw", .text l.spelling), ("regex", .absent),
          ("bigint", .absent)] [.string l]
  | word {raw value} (hkind : t.kind = raw)
      (hvalue : (raw, value) ∈
        [("true", .bool true), ("false", .bool false), ("null", Json.null)]) :
      Layout source t "Literal"
        [("value", .value value), ("raw", .text raw), ("regex", .absent), ("bigint", .absent)] []
  | binary {word operator left right} (hkind : t.kind = "binary_expression")
      (hword : t.inField? "operator" = some word) (htext : text source word = .ok operator)
      (hleft : t.inField? "left" = some left) (hright : t.inField? "right" = some right) :
      Layout source t (if isLogical operator then "LogicalExpression" else "BinaryExpression")
        [("operator", .text operator), ("left", .child left), ("right", .child right)] []
  | assignment {operator left right}
      (hkind : t.kind = "assignment_expression" ∨ t.kind = "augmented_assignment_expression")
      (hoperator : AssignmentOperator source t operator)
      (hleft : t.inField? "left" = some left) (hright : t.inField? "right" = some right) :
      Layout source t "AssignmentExpression"
        [("operator", .text operator), ("left", .child left), ("right", .child right)] []

/-- A JSON value is the standard ESTree form of a concrete tree whose nodes nest at most `room`
deep, with its tokens of a value in their order. The spans of the form are free. -/
inductive Standard (source : ByteArray) :
    Nat → ConcreteTree → Json → List ValuedToken → Prop
  | object {room : Nat} {t : ConcreteTree} {kind : String}
      {slots : List (String × Slot ConcreteTree)} {own : List ValuedToken} {fields : Fields}
      {parts : List (ConcreteTree × Json)} {loc : Option Location}
      {tokens : ConcreteTree × Json → List ValuedToken} {all : List ValuedToken}
      (layout : Layout source t kind slots own)
      (type : field? fields "type" = some (.ofString kind))
      (span : Spans loc (field? fields "loc")) (filled : Filled fields slots parts)
      (standard : ∀ p ∈ parts, Standard source room p.1 p.2 (tokens p))
      (inOrder : all = own ++ parts.flatMap tokens) : Standard source (room + 1) t (.obj fields) all
  | paren {room : Nat} {t e : ConcreteTree} {j : Json} {tokens : List ValuedToken}
      (hkind : t.kind = "parenthesized_expression") (hpart : t.firstPart? = some e)
      (hinner : e.kind ≠ "empty_statement") (standard : Standard source room e j tokens) :
      Standard source (room + 1) t j tokens

section Agreement

/-- A tree is another one after trimming, as far as an edit shows. -/
abbrev Same (e : Node.Edit) (n m : Node) : Prop := n.edit e = (m.edit .trim).edit e

abbrev SameSome (e : Node.Edit) (n m : Option Node) : Prop :=
  n.map (Node.edit e) = (m.map (Node.edit .trim)).map (Node.edit e)

abbrev SameAll (e : Node.Edit) (ns ms : List Node) : Prop :=
  ns.map (Node.edit e) = (ms.map (Node.edit .trim)).map (Node.edit e)

/-- Whatever a computation gives is alike in shape, and it gives what is alike in all but spans
exactly under a condition. -/
structure Agrees {α : Type} (x : Except Error α) (same : Node.Edit → α → Prop) (kept : Prop) :
    Prop where
  shape : ∀ a, x = .ok a → same .shape a
  exact : (∃ a, x = .ok a ∧ same .unplaced a) ↔ kept

namespace Agrees
variable {α β : Type} {x : Except Error α} {f : α → Except Error β}
  {same : Node.Edit → α → Prop} {same' : Node.Edit → β → Prop} {before first later : Prop}

/-- One step after others: what they ask for stays in front. -/
theorem bind (hx : Agrees x same first)
    (hf : ∀ a, same .shape a → Agrees (f a) same' ((before ∧ same .unplaced a) ∧ later)) :
    Agrees (x >>= f) same' (before ∧ first ∧ later) := by
  constructor
  · intro b hb
    obtain ⟨a, ha, hb⟩ := bind_eq_ok.mp hb
    exact (hf a (hx.shape a ha)).shape b hb
  · rw [← hx.exact]
    constructor
    · rintro ⟨b, hb, hexact⟩
      obtain ⟨a, ha, hb⟩ := bind_eq_ok.mp hb
      obtain ⟨⟨hbefore, ha'⟩, hlater⟩ := (hf a (hx.shape a ha)).exact.mp ⟨b, hb, hexact⟩
      exact ⟨hbefore, ⟨a, ha, ha'⟩, hlater⟩
    · rintro ⟨hbefore, ⟨a, ha, ha'⟩, hlater⟩
      obtain ⟨b, hb, hexact⟩ := (hf a (hx.shape a ha)).exact.mpr ⟨⟨hbefore, ha'⟩, hlater⟩
      exact ⟨b, bind_eq_ok.mpr ⟨a, ha, hb⟩, hexact⟩

theorem ok {a : α} (hshape : same .shape a) (hexact : same .unplaced a ↔ before) :
    Agrees (.ok a) same (before ∧ True) :=
  ⟨fun _ h => Except.ok.inj h ▸ hshape, by simp [hexact]⟩

/-- Before the first step and after the last one nothing is asked for. -/
theorem of_true_and (h : Agrees x same (True ∧ later)) : Agrees x same later := by
  rwa [true_and] at h

theorem of_and_true (h : Agrees x same (first ∧ True)) : Agrees x same first := by
  rwa [and_true] at h

end Agrees

variable {build : ConcreteTree → Except Error Node} {source : ByteArray}

/-- What is built for a node is, up to spans, the trimmed form of the given one. -/
def Matches (build : ConcreteTree → Except Error Node) (t : ConcreteTree) (m : Node) : Prop :=
  ∃ n, build t = .ok n ∧ Same .unplaced n m

/-- A node and what is given for it have one shape, and they are empty statements together. -/
structure PartAgrees (build : ConcreteTree → Except Error Node) (t : ConcreteTree) (m : Node) :
    Prop where
  shape : ∀ n, build t = .ok n → Same .shape n m
  isEmpty : m.isEmptyStatement = true ↔ t.kind = "empty_statement"
  matchesEmpty : t.kind = "empty_statement" → Matches build t m

theorem PartAgrees.agrees {t : ConcreteTree} {m : Node} (h : PartAgrees build t m) :
    Agrees (build t) (Same · · m) (Matches build t m) :=
  ⟨h.shape, .rfl⟩

section Lists
variable {pairs : List (ConcreteTree × Node)} (h : ∀ p ∈ pairs, PartAgrees build p.1 p.2)
include h

theorem agrees_mapM : Agrees ((pairs.map Prod.fst).mapM build) (SameAll · · (pairs.map Prod.snd))
    (∀ p ∈ pairs, Matches build p.1 p.2) := by
  induction pairs with
  | nil => exact ⟨fun a ha => Except.ok.inj ha ▸ rfl, by simp [SameAll, pure, Except.pure]⟩
  | cons p rest ih =>
    rw [List.forall_mem_cons] at h
    rw [List.map_cons, List.mapM_cons, List.forall_mem_cons]
    rw [← and_true (∀ p ∈ rest, _)]
    refine .of_true_and (h.1.agrees.bind fun n hn => (ih h.2).bind fun ns hns => .ok ?_ ?_)
    · exact congrArg₂ List.cons hn hns
    · simp [SameAll, Same]

/-- Without the empty statements, a list of statements is built into a trimmed list. -/
theorem agrees_statements :
    Agrees (((pairs.map Prod.fst).filter (·.kind != "empty_statement")).mapM build)
      (SameAll · · ((pairs.map Prod.snd).filter (!·.isEmptyStatement)))
      (∀ p ∈ pairs, Matches build p.1 p.2) := by
  have hfilter : (pairs.filter (·.1.kind != "empty_statement")).map Prod.snd =
      (pairs.map Prod.snd).filter (!·.isEmptyStatement) := by
    rw [List.filter_map]
    refine congrArg _ (List.filter_congr fun p hp => ?_)
    by_cases hkind : p.1.kind = "empty_statement"
    · simp [hkind, (h p hp).isEmpty.mpr hkind]
    · have hkept : p.2.isEmptyStatement = false := by simpa using (h p hp).isEmpty.not.mpr hkind
      simp [hkind, hkept]
  have hkept : (∀ p ∈ pairs, Matches build p.1 p.2) ↔
      ∀ p ∈ pairs.filter (·.1.kind != "empty_statement"), Matches build p.1 p.2 := by
    constructor
    · exact fun hall p hp => hall p (List.mem_of_mem_filter hp)
    · intro hall p hp
      by_cases hkind : p.1.kind = "empty_statement"
      · exact (h p hp).matchesEmpty hkind
      · exact hall p (List.mem_filter.mpr ⟨hp, by simpa using hkind⟩)
  rw [hkept, ← hfilter, List.filter_map]
  exact agrees_mapM fun p hp => h p (List.mem_of_mem_filter hp)

end Lists

def SlotAgrees (build : ConcreteTree → Except Error Node) :
    Slot ConcreteTree → Slot Node → Prop → Prop
  | .child c, slot, kept => ∃ m, slot = .child m ∧ Agrees (build c) (Same · · m) kept
  | .optional c, slot, kept =>
    ∃ m, slot = .optional m ∧ Agrees (Concrete.optional build c) (SameSome · · m) kept
  | .list cs, slot, kept => ∃ ms, slot = .list ms ∧
      Agrees (cs.mapM build) (SameAll · · ms) kept ∧
      Agrees ((cs.filter (·.kind != "empty_statement")).mapM build)
        (SameAll · · (ms.filter (!·.isEmptyStatement))) kept
  | .text s, slot, kept => slot = .text s ∧ kept = True
  | .value v, slot, kept => slot = .value v ∧ kept = True
  | .absent, slot, kept => slot = .absent ∧ kept = True

theorem slotAgrees_of_paired {slot : Slot ConcreteTree} {slot' : Slot Node}
    {pairs : List (ConcreteTree × Node)} (hpaired : slot.Paired slot' pairs)
    (h : ∀ p ∈ pairs, PartAgrees build p.1 p.2) :
    SlotAgrees build slot slot' (∀ p ∈ pairs, Matches build p.1 p.2) := by
  cases slot with
  | child c =>
    obtain ⟨m, rfl, rfl⟩ := hpaired
    rw [List.forall_mem_singleton] at h ⊢
    exact ⟨m, rfl, h.agrees⟩
  | optional c =>
    cases c with
    | none =>
      obtain ⟨rfl, rfl⟩ := hpaired
      refine ⟨none, rfl, fun a ha => Except.ok.inj ha ▸ rfl, ?_⟩
      simp [Concrete.optional, SameSome]
    | some c =>
      obtain ⟨m, rfl, rfl⟩ := hpaired
      rw [List.forall_mem_singleton] at h ⊢
      refine ⟨some m, rfl, .of_and_true (.of_true_and (h.agrees.bind fun n hn => .ok ?_ ?_))⟩
      · exact congrArg some hn
      · simp [SameSome, Same]
  | list cs =>
    obtain ⟨rfl, rfl⟩ := hpaired
    exact ⟨_, rfl, agrees_mapM h, agrees_statements h⟩
  | text s =>
    obtain ⟨rfl, rfl⟩ := hpaired
    exact ⟨rfl, by simp⟩
  | value v =>
    obtain ⟨rfl, rfl⟩ := hpaired
    exact ⟨rfl, by simp⟩
  | absent =>
    obtain ⟨rfl, rfl⟩ := hpaired
    exact ⟨rfl, by simp⟩

def SlotsAgree (build : ConcreteTree → Except Error Node) :
    List (String × Slot ConcreteTree) → List (String × Slot Node) → Prop → Prop
  | [], slots, kept => slots = [] ∧ kept = True
  | (key, slot) :: rest, slots, kept => ∃ slot' rest' first later,
      slots = (key, slot') :: rest' ∧ kept = (first ∧ later) ∧ SlotAgrees build slot slot' first ∧
        SlotsAgree build rest rest' later

theorem slotsAgree_of_paired {slots : List (String × Slot ConcreteTree)}
    {slots' : List (String × Slot Node)} {pairs : List (ConcreteTree × Node)}
    (hpaired : SlotsPaired slots slots' pairs) (h : ∀ p ∈ pairs, PartAgrees build p.1 p.2) :
    SlotsAgree build slots slots' (∀ p ∈ pairs, Matches build p.1 p.2) := by
  induction slots generalizing slots' pairs with
  | nil =>
    obtain ⟨rfl, rfl⟩ := hpaired
    exact ⟨rfl, by simp⟩
  | cons p rest ih =>
    obtain ⟨slot', rest', first, later, rfl, rfl, hfirst, hlater⟩ := hpaired
    rw [List.forall_mem_append] at h
    exact ⟨slot', rest', _, _, rfl, propext List.forall_mem_append, slotAgrees_of_paired hfirst h.1,
      ih hlater h.2⟩

end Agreement

/-- What stands behind an `else` is found where the builder looks for it. -/
theorem Alternate.bind_eq {a s : Option ConcreteTree} (h : Alternate a s) :
    (a.bind fun a => if a.kind = "else_clause" then a.firstPart? else some a) = s := by
  cases h with
  | none => rfl
  | wrapped hkind h => simp [hkind, h]
  | plain hkind => simp [hkind]

theorem HeadClause.loopClause_eq {a e : Option ConcreteTree} (h : HeadClause a e) :
    loopClause a = .ok e := by
  cases h with
  | none => rfl
  | empty hkind => rcases hkind with hkind | hkind <;> simp [loopClause, hkind]
  | wrapped hkind h => simp [loopClause, hkind, h, need, bind, Except.bind, pure, Except.pure]
  | plain hkind => simp [loopClause, hkind]

theorem statementNodes_eq (t : ConcreteTree) :
    statementNodes t = (parts t).filter (·.kind != "empty_statement") := by
  simp [statementNodes, parts, List.filter_filter, Bool.and_comm]

/-- A declaration whose parts are all declarators has no others. -/
theorem filter_declarators {t : ConcreteTree} (h : ∀ c ∈ parts t, c.kind = "variable_declarator") :
    t.namedChildren.filter (·.kind == "variable_declarator") = parts t := by
  refine List.filter_congr fun c hc => ?_
  by_cases hcomment : c.isComment
  · have hkind : c.kind ≠ "variable_declarator" := by
      rintro heq
      simp [ConcreteTree.isComment, heq] at hcomment
    simp [hcomment, hkind]
  · have hkind := h c (List.mem_filter.mpr ⟨hc, by simp [hcomment]⟩)
    simp [hcomment, hkind]

section Kinds
variable {build : ConcreteTree → Except Error Node} {source : ByteArray} {t : ConcreteTree}
  {slots : List (String × Slot Node)} {kept : Prop}

/-- What is built for a node agrees with one of a supported kind that has the given fields. -/
def BuildsKind (build : ConcreteTree → Except Error Node) (source : ByteArray) (t : ConcreteTree)
    (kind : String) (slots : List (String × Slot Node)) (kept : Prop) : Prop :=
  ∀ loc, ∃ m : Node, m.kind = kind ∧ m.loc = loc ∧ m.slots = slots ∧
    (∀ loc kind, m ≠ .foreign loc kind) ∧ Agrees (nodeWith build source t) (Same · · m) kept

theorem buildsKind_program (hkind : t.kind = "program")
    (h : SlotsAgree build [("body", .list (parts t))] slots kept) :
    BuildsKind build source t "Program" slots kept := by
  obtain ⟨_, _, _, _, rfl, rfl, ⟨ms, rfl, -, h⟩, rfl, rfl⟩ := h
  intro loc
  refine ⟨.program loc ms, rfl, rfl, rfl, by simp, ?_⟩
  have hbuild : nodeWith build source t = do
      return .program t.location (← (statementNodes t).mapM build) := by
    simp [nodeWith, hkind]
  rw [hbuild, statementNodes_eq]
  refine .of_true_and (h.bind fun ns hns => .ok ?_ ?_)
  · simp [Same, Node.edit, hns]
  · simp [Same, SameAll, Node.edit]

theorem buildsKind_block (hkind : t.kind = "statement_block")
    (h : SlotsAgree build [("body", .list (parts t))] slots kept) :
    BuildsKind build source t "BlockStatement" slots kept := by
  obtain ⟨_, _, _, _, rfl, rfl, ⟨ms, rfl, -, h⟩, rfl, rfl⟩ := h
  intro loc
  refine ⟨.block loc ms, rfl, rfl, rfl, by simp, ?_⟩
  have hbuild : nodeWith build source t = do
      return .block t.location (← (statementNodes t).mapM build) := by
    simp [nodeWith, hkind]
  rw [hbuild, statementNodes_eq]
  refine .of_true_and (h.bind fun ns hns => .ok ?_ ?_)
  · simp [Same, Node.edit, hns]
  · simp [Same, SameAll, Node.edit]

theorem buildsKind_expression {e : ConcreteTree} (hkind : t.kind = "expression_statement")
    (he : t.firstPart? = some e)
    (h : SlotsAgree build [("expression", .child e)] slots kept) :
    BuildsKind build source t "ExpressionStatement" slots kept := by
  obtain ⟨_, _, _, _, rfl, rfl, ⟨m, rfl, h⟩, rfl, rfl⟩ := h
  intro loc
  refine ⟨.expression loc m, rfl, rfl, rfl, by simp, ?_⟩
  have hbuild : nodeWith build source t = do
      return .expression t.location (← build e) := by
    simp [nodeWith, hkind, he, need, ok_bind]
  rw [hbuild]
  refine .of_true_and (h.bind fun n hn => .ok ?_ ?_)
  · simp [Same, Node.edit, hn]
  · simp [Same, Node.edit]

theorem buildsKind_declaration {word : ConcreteTree} {rest : List ConcreteTree} {kind : String}
    (hkind : t.kind = "lexical_declaration" ∨ t.kind = "variable_declaration")
    (hword : t.children = word :: rest) (htext : text source word = .ok kind)
    (hparts : ∀ c ∈ parts t, c.kind = "variable_declarator")
    (h : SlotsAgree build [("kind", .text kind), ("declarations", .list (parts t))] slots kept) :
    BuildsKind build source t "VariableDeclaration" slots kept := by
  obtain ⟨_, _, _, _, rfl, rfl, ⟨rfl, rfl⟩, _, _, _, _, rfl, rfl, ⟨ms, rfl, h, -⟩, rfl, rfl⟩ := h
  intro loc
  refine ⟨.declaration loc kind ms, rfl, rfl, rfl, by simp, ?_⟩
  have hbuild : nodeWith build source t = do
      return .declaration t.location kind (← (parts t).mapM build) := by
    have hdeclarators := filter_declarators hparts
    rcases hkind with hkind | hkind <;>
      simp [nodeWith, hkind, hword, orFault, htext, hdeclarators, ok_bind]
  rw [hbuild]
  refine h.bind fun ns hns => .ok ?_ ?_
  · simp [Same, Node.edit, hns]
  · simp [Same, SameAll, Node.edit]

theorem buildsKind_declarator {id : ConcreteTree} (hkind : t.kind = "variable_declarator")
    (hid : t.inField? "name" = some id)
    (h : SlotsAgree build [("id", .child id), ("init", .optional (t.inField? "value"))]
      slots kept) :
    BuildsKind build source t "VariableDeclarator" slots kept := by
  obtain ⟨_, _, _, _, rfl, rfl, ⟨m₁, rfl, h₁⟩, _, _, _, _, rfl, rfl, ⟨m₂, rfl, h₂⟩, rfl, rfl⟩ := h
  intro loc
  refine ⟨.declarator loc m₁ m₂, rfl, rfl, rfl, by simp, ?_⟩
  have hbuild : nodeWith build source t = do
      return .declarator t.location (← build id) (← optional build (t.inField? "value")) := by
    simp [nodeWith, hkind, hid, need, ok_bind]
  rw [hbuild]
  refine .of_true_and (h₁.bind fun n₁ hn₁ => h₂.bind fun n₂ hn₂ => .ok ?_ ?_)
  · simp [Same, Node.edit, hn₁, hn₂]
  · simp [Same, SameSome, Node.edit]

theorem buildsKind_conditional {test consequent : ConcreteTree} {alternate : Option ConcreteTree}
    (hkind : t.kind = "if_statement") (htest : t.inField? "condition" = some test)
    (hconsequent : t.inField? "consequence" = some consequent)
    (halternate : Alternate (t.inField? "alternative") alternate)
    (h : SlotsAgree build [("test", .child test), ("consequent", .child consequent),
      ("alternate", .optional alternate)] slots kept) :
    BuildsKind build source t "IfStatement" slots kept := by
  obtain ⟨_, _, _, _, rfl, rfl, ⟨m₁, rfl, h₁⟩, _, _, _, _, rfl, rfl, ⟨m₂, rfl, h₂⟩, _, _, _, _,
    rfl, rfl, ⟨m₃, rfl, h₃⟩, rfl, rfl⟩ := h
  intro loc
  refine ⟨.conditional loc m₁ m₂ m₃, rfl, rfl, rfl, by simp, ?_⟩
  have hbuild : nodeWith build source t = do
      return .conditional t.location (← build test) (← build consequent)
        (← optional build alternate) := by
    simp [nodeWith, hkind, halternate.bind_eq, htest, hconsequent, need, ok_bind]
  rw [hbuild]
  refine .of_true_and (h₁.bind fun n₁ hn₁ => h₂.bind fun n₂ hn₂ => h₃.bind fun n₃ hn₃ =>
    .ok ?_ ?_)
  · simp [Same, Node.edit, hn₁, hn₂, hn₃]
  · simp [Same, SameSome, Node.edit, and_assoc]

theorem buildsKind_whileLoop {test body : ConcreteTree} (hkind : t.kind = "while_statement")
    (htest : t.inField? "condition" = some test) (hbody : t.inField? "body" = some body)
    (h : SlotsAgree build [("test", .child test), ("body", .child body)] slots kept) :
    BuildsKind build source t "WhileStatement" slots kept := by
  obtain ⟨_, _, _, _, rfl, rfl, ⟨m₁, rfl, h₁⟩, _, _, _, _, rfl, rfl, ⟨m₂, rfl, h₂⟩, rfl, rfl⟩ := h
  intro loc
  refine ⟨.whileLoop loc m₁ m₂, rfl, rfl, rfl, by simp, ?_⟩
  have hbuild : nodeWith build source t = do
      return .whileLoop t.location (← build test) (← build body) := by
    simp [nodeWith, hkind, htest, hbody, need, ok_bind]
  rw [hbuild]
  refine .of_true_and (h₁.bind fun n₁ hn₁ => h₂.bind fun n₂ hn₂ => .ok ?_ ?_)
  · simp [Same, Node.edit, hn₁, hn₂]
  · simp [Same, Node.edit]

theorem buildsKind_forLoop {init test update : Option ConcreteTree} {body : ConcreteTree}
    (hkind : t.kind = "for_statement") (hinit : HeadClause (t.inField? "initializer") init)
    (htest : HeadClause (t.inField? "condition") test)
    (hupdate : HeadClause ((t.inField? "increment").or (t.inField? "update")) update)
    (hbody : t.inField? "body" = some body)
    (h : SlotsAgree build [("init", .optional init), ("test", .optional test),
      ("update", .optional update), ("body", .child body)] slots kept) :
    BuildsKind build source t "ForStatement" slots kept := by
  obtain ⟨_, _, _, _, rfl, rfl, ⟨m₁, rfl, h₁⟩, _, _, _, _, rfl, rfl, ⟨m₂, rfl, h₂⟩, _, _, _, _,
    rfl, rfl, ⟨m₃, rfl, h₃⟩, _, _, _, _, rfl, rfl, ⟨m₄, rfl, h₄⟩, rfl, rfl⟩ := h
  intro loc
  refine ⟨.forLoop loc m₁ m₂ m₃ m₄, rfl, rfl, rfl, by simp, ?_⟩
  have hbuild : nodeWith build source t = do
      return .forLoop t.location (← optional build init) (← optional build test)
        (← optional build update) (← build body) := by
    simp [nodeWith, hkind, hinit.loopClause_eq, htest.loopClause_eq, hupdate.loopClause_eq, hbody,
      need, ok_bind]
  rw [hbuild]
  refine .of_true_and (h₁.bind fun n₁ hn₁ => h₂.bind fun n₂ hn₂ => h₃.bind fun n₃ hn₃ =>
    h₄.bind fun n₄ hn₄ => .ok ?_ ?_)
  · simp [Same, Node.edit, hn₁, hn₂, hn₃, hn₄]
  · simp [Same, SameSome, Node.edit, and_assoc]

theorem buildsKind_function {id formals body : ConcreteTree}
    (hkind : t.kind = "function_declaration") (hid : t.inField? "name" = some id)
    (hformals : t.inField? "parameters" = some formals) (hbody : t.inField? "body" = some body)
    (h : SlotsAgree build [("id", .child id), ("params", .list (parts formals)),
      ("body", .child body)] slots kept) :
    BuildsKind build source t "FunctionDeclaration" slots kept := by
  obtain ⟨_, _, _, _, rfl, rfl, ⟨m₁, rfl, h₁⟩, _, _, _, _, rfl, rfl, ⟨ms, rfl, h, -⟩, _, _, _, _,
    rfl, rfl, ⟨m₂, rfl, h₂⟩, rfl, rfl⟩ := h
  intro loc
  refine ⟨.function loc m₁ ms m₂, rfl, rfl, rfl, by simp, ?_⟩
  have hbuild : nodeWith build source t = do
      let params ← (parts formals).mapM build
      return .function t.location (← build id) params (← build body) := by
    simp [nodeWith, hkind, hid, hformals, hbody, need, ok_bind, parts]
  -- The parameters are built before the name.
  rw [hbuild, and_left_comm]
  refine .of_true_and (h.bind fun ns hns => h₁.bind fun n₁ hn₁ => h₂.bind fun n₂ hn₂ => .ok ?_ ?_)
  · simp [Same, Node.edit, hns, hn₁, hn₂]
  · simp [Same, SameAll, Node.edit, and_assoc, and_left_comm]

theorem buildsKind_ret (hkind : t.kind = "return_statement")
    (h : SlotsAgree build [("argument", .optional t.firstPart?)] slots kept) :
    BuildsKind build source t "ReturnStatement" slots kept := by
  obtain ⟨_, _, _, _, rfl, rfl, ⟨m, rfl, h⟩, rfl, rfl⟩ := h
  intro loc
  refine ⟨.ret loc m, rfl, rfl, rfl, by simp, ?_⟩
  have hbuild : nodeWith build source t = do
      return .ret t.location (← optional build t.firstPart?) := by
    simp [nodeWith, hkind]
  rw [hbuild]
  refine .of_true_and (h.bind fun n hn => .ok ?_ ?_)
  · simp [Same, Node.edit, hn]
  · simp [Same, SameSome, Node.edit]

theorem buildsKind_assignment {operator : String} {left right : ConcreteTree}
    (hkind : t.kind = "assignment_expression" ∨ t.kind = "augmented_assignment_expression")
    (hoperator : AssignmentOperator source t operator)
    (hleft : t.inField? "left" = some left) (hright : t.inField? "right" = some right)
    (h : SlotsAgree build [("operator", .text operator), ("left", .child left),
      ("right", .child right)] slots kept) :
    BuildsKind build source t "AssignmentExpression" slots kept := by
  obtain ⟨_, _, _, _, rfl, rfl, ⟨rfl, rfl⟩, _, _, _, _, rfl, rfl, ⟨m₁, rfl, h₁⟩, _, _, _, _, rfl,
    rfl, ⟨m₂, rfl, h₂⟩, rfl, rfl⟩ := h
  intro loc
  refine ⟨.assignment loc operator m₁ m₂, rfl, rfl, rfl, by simp, ?_⟩
  have hbuild : nodeWith build source t = do
      return .assignment t.location operator (← build left) (← build right) := by
    cases hoperator with
    | plain h => rcases hkind with hkind | hkind <;>
        simp [nodeWith, hkind, h, hleft, hright, need, ok_bind]
    | spelled h htext => rcases hkind with hkind | hkind <;>
        simp [nodeWith, hkind, h, htext, hleft, hright, orFault, need, ok_bind]
  rw [hbuild]
  refine h₁.bind fun n₁ hn₁ => h₂.bind fun n₂ hn₂ => .ok ?_ ?_
  · simp [Same, Node.edit, hn₁, hn₂]
  · simp [Same, Node.edit]

theorem buildsKind_binary {word left right : ConcreteTree} {operator : String}
    (hkind : t.kind = "binary_expression") (hword : t.inField? "operator" = some word)
    (htext : text source word = .ok operator) (hleft : t.inField? "left" = some left)
    (hright : t.inField? "right" = some right)
    (h : SlotsAgree build [("operator", .text operator), ("left", .child left),
      ("right", .child right)] slots kept) :
    BuildsKind build source t
      (if isLogical operator then "LogicalExpression" else "BinaryExpression") slots kept := by
  obtain ⟨_, _, _, _, rfl, rfl, ⟨rfl, rfl⟩, _, _, _, _, rfl, rfl, ⟨m₁, rfl, h₁⟩, _, _, _, _,
    rfl, rfl, ⟨m₂, rfl, h₂⟩, rfl, rfl⟩ := h
  intro loc
  have hbuild : nodeWith build source t = do
      let left ← build left
      let right ← build right
      return if isLogical operator then .logical t.location operator left right
        else .binary t.location operator left right := by
    simp [nodeWith, hkind, hword, htext, hleft, hright, orFault, need, ok_bind]
  rw [hbuild]
  by_cases hlogical : isLogical operator
  · simp only [hlogical, if_true]
    refine ⟨.logical loc operator m₁ m₂, rfl, rfl, rfl, by simp, ?_⟩
    refine h₁.bind fun n₁ hn₁ => h₂.bind fun n₂ hn₂ => .ok ?_ ?_
    · simp [Same, Node.edit, hn₁, hn₂]
    · simp [Same, Node.edit]
  · simp only [hlogical]
    refine ⟨.binary loc operator m₁ m₂, rfl, rfl, rfl, by simp, ?_⟩
    refine h₁.bind fun n₁ hn₁ => h₂.bind fun n₂ hn₂ => .ok ?_ ?_
    · simp [Same, Node.edit, hn₁, hn₂]
    · simp [Same, Node.edit]

theorem buildsKind_identifier {l : WrittenName}
    (hkind : t.kind = "identifier" ∨ t.kind = "undefined") (htext : text source t = .ok l.spelling)
    (h : SlotsAgree build [("name", .text l.name)] slots kept) :
    BuildsKind build source t "Identifier" slots ((ValuedToken.name l).Kept ∧ kept) := by
  obtain ⟨_, _, _, _, rfl, rfl, ⟨rfl, rfl⟩, rfl, rfl⟩ := h
  intro loc
  refine ⟨.identifier loc l.name, rfl, rfl, rfl, by simp, ?_⟩
  have hbuild : nodeWith build source t = .ok (.identifier t.location l.spelling) := by
    rcases hkind with hkind | hkind <;>
      simp [nodeWith, hkind, htext, orFault, ok_bind, pure, Except.pure]
  rw [hbuild, and_true]
  refine .ok (by simp [Same, Node.edit]) ?_
  simp [Same, Node.edit, l.spelling_eq_iff, ValuedToken.Kept]

theorem buildsKind_number {l : NumericLiteral} (hkind : t.kind = "number")
    (htext : text source t = .ok l.spelling)
    (h : SlotsAgree build [("value", .value l.number.asJson), ("raw", .text l.spelling),
      ("regex", .absent), ("bigint", .absent)] slots kept) :
    BuildsKind build source t "Literal" slots ((ValuedToken.number l).Kept ∧ kept) := by
  obtain ⟨_, _, _, _, rfl, rfl, ⟨rfl, rfl⟩, _, _, _, _, rfl, rfl, ⟨rfl, rfl⟩, _, _, _, _, rfl, rfl,
    ⟨rfl, rfl⟩, _, _, _, _, rfl, rfl, ⟨rfl, rfl⟩, rfl, rfl⟩ := h
  intro loc
  refine ⟨.literal loc l.number.asJson l.spelling, rfl, rfl, rfl, by simp, ?_⟩
  obtain ⟨hliteral, hkept⟩ := NumberLiteral.node_numeric l t.location
  have hbuild (n : Node) : nodeWith build source t = .ok n ↔
      NumberLiteral.node l.spelling t.location = .ok n := by
    cases hnode : NumberLiteral.node l.spelling t.location <;>
      simp [nodeWith, hkind, htext, ok_bind, hnode, orFault]
  constructor
  · intro n hn
    obtain ⟨v, rfl⟩ := hliteral n ((hbuild n).mp hn)
    simp [Same, Node.edit]
  · simp only [hbuild, and_true, ValuedToken.Kept, ← hkept]
    constructor
    · rintro ⟨n, hn, hsame⟩
      obtain ⟨v, rfl⟩ := hliteral n hn
      obtain rfl : v = l.number.asJson := by simpa [Same, Node.edit] using hsame
      exact hn
    · exact fun hn => ⟨_, hn, by simp [Same, Node.edit]⟩

theorem buildsKind_string {l : StringLiteral} {value : Text} (hstring : IsString source t l)
    (hvalue : l.Denotes value)
    (h : SlotsAgree build [("value", .value (.str value)), ("raw", .text l.spelling),
      ("regex", .absent), ("bigint", .absent)] slots kept) :
    BuildsKind build source t "Literal" slots ((ValuedToken.string l).Kept ∧ kept) := by
  obtain ⟨_, _, _, _, rfl, rfl, ⟨rfl, rfl⟩, _, _, _, _, rfl, rfl, ⟨rfl, rfl⟩, _, _, _, _, rfl, rfl,
    ⟨rfl, rfl⟩, _, _, _, _, rfl, rfl, ⟨rfl, rfl⟩, rfl, rfl⟩ := h
  intro loc
  refine ⟨.literal loc (.str value) l.spelling, rfl, rfl, rfl, by simp, ?_⟩
  obtain ⟨hkind, htext, groups, hgroups, hparts⟩ := hstring
  have hbuilt : stringValue source t.namedChildren = .ok l.built := by
    rw [stringValue_eq hparts, hgroups, StringLiteral.built]
  rw [nodeWith_string hkind hbuilt htext]
  simp only [and_true]
  rw [← and_true (ValuedToken.Kept _)]
  refine .ok (by simp [Same, Node.edit]) ?_
  simp [Same, Node.edit, hvalue.built_eq_iff, ValuedToken.Kept]

theorem buildsKind_word {raw : String} {value : Json} (hkind : t.kind = raw)
    (hvalue : (raw, value) ∈ [("true", .bool true), ("false", .bool false), ("null", Json.null)])
    (h : SlotsAgree build [("value", .value value), ("raw", .text raw), ("regex", .absent),
      ("bigint", .absent)] slots kept) :
    BuildsKind build source t "Literal" slots kept := by
  obtain ⟨_, _, _, _, rfl, rfl, ⟨rfl, rfl⟩, _, _, _, _, rfl, rfl, ⟨rfl, rfl⟩, _, _, _, _, rfl, rfl,
    ⟨rfl, rfl⟩, _, _, _, _, rfl, rfl, ⟨rfl, rfl⟩, rfl, rfl⟩ := h
  intro loc
  refine ⟨.literal loc value raw, rfl, rfl, rfl, by simp, ?_⟩
  have hbuild : nodeWith build source t = .ok (.literal t.location value raw) := by
    have hcases : raw = "true" ∧ value = .bool true ∨ raw = "false" ∧ value = .bool false ∨
        raw = "null" ∧ value = .null := by simpa using hvalue
    rcases hcases with ⟨rfl, rfl⟩ | ⟨rfl, rfl⟩ | ⟨rfl, rfl⟩ <;>
      simp [nodeWith, hkind, pure, Except.pure]
  rw [hbuild]
  simp only [and_true]
  rw [← and_true True]
  exact .ok (by simp [Same, Node.edit]) (by simp [Same, Node.edit])

/-- An object with the fields of a layout is read as a node that what is built agrees with. -/
def Reads (build : ConcreteTree → Except Error Node) (source : ByteArray) (t : ConcreteTree)
    (kind : String) (loc : Option Location) (fields : Fields) (others : List (Node × Json))
    (kept : Prop) : Prop :=
  ∃ m : Node, m.kind = kind ∧ m.loc = loc ∧ Filled fields m.slots others ∧
    (∀ loc kind, m = .foreign loc kind → NamesForeign fields kind) ∧
    (m.isEmptyStatement = true ↔ t.kind = "empty_statement") ∧
    Agrees (nodeWith build source t) (Same · · m) kept

variable {kind : String} {fields : Fields} {others : List (Node × Json)}

theorem BuildsKind.reads (h : BuildsKind build source t kind slots kept)
    (hfilled : Filled fields slots others) (hkind : t.kind ≠ "empty_statement")
    (loc : Option Location) : Reads build source t kind loc fields others kept := by
  obtain ⟨m, rfl, rfl, rfl, hforeign, hagrees⟩ := h loc
  refine ⟨m, rfl, rfl, hfilled, fun loc kind hm => absurd hm (hforeign loc kind), ?_, hagrees⟩
  have hm : m.isEmptyStatement = false := by
    cases m with
    | foreign loc kind => exact absurd rfl (hforeign loc kind)
    | _ => rfl
  simp [hm, hkind]

theorem reads_empty (hkind : t.kind = "empty_statement") (h : SlotsAgree build [] slots kept)
    (hfilled : Filled fields slots others) (loc : Option Location) :
    Reads build source t "EmptyStatement" loc fields others kept := by
  obtain ⟨rfl, rfl⟩ := h
  refine ⟨.foreign loc "EmptyStatement", rfl, rfl, hfilled, ?_, ?_, ?_⟩
  · intro loc kind h
    cases h
    exact .inl (by decide)
  · simp [hkind, Node.isEmptyStatement]
  · have hname : kindName "empty_statement" = "EmptyStatement" := by decide
    have hbuild : nodeWith build source t = .ok (.foreign t.location "EmptyStatement") := by
      simp [nodeWith, hkind, hname, pure, Except.pure]
    rw [hbuild]
    exact .of_and_true (.ok (by simp [Same, Node.edit]) (by simp [Same, Node.edit]))

/-- The two readers name a big integer differently, and trimming takes the name from the source. -/
theorem reads_bigInteger {raw : String} {digits : Json} (hkind : t.kind = "number")
    (htext : text source t = .ok raw) (hraw : raw.toList.getLast? = some 'n')
    (h : SlotsAgree build [("bigint", .value digits)] slots kept)
    (hfilled : Filled fields slots others) (loc : Option Location) :
    Reads build source t "Literal" loc fields others kept := by
  obtain ⟨_, _, _, _, rfl, rfl, ⟨rfl, rfl⟩, rfl, rfl⟩ := h
  obtain ⟨_, _, rfl, ⟨hbigint, rfl⟩, rfl⟩ := hfilled
  refine ⟨.foreign loc "Literal", rfl, rfl, rfl, ?_, ?_, ?_⟩
  · intro loc kind h
    cases h
    exact .inr ⟨rfl, .inr (by rw [hbigint]; rfl)⟩
  · simp [hkind, Node.isEmptyStatement]
  · have hbuild : nodeWith build source t = .ok (.foreign t.location "BigIntLiteral") := by
      simp [nodeWith, hkind, htext, ok_bind, orFault, NumberLiteral.node, hraw]
    rw [hbuild]
    exact .ok (by simp [Same, Node.edit]) (by simp [Same, Node.edit])

/-- The object of a layout whose parts agree is read as a node that what is built agrees with, if
the tokens of the layout are kept. -/
theorem Layout.reads {layout : List (String × Slot ConcreteTree)} {own : List ValuedToken}
    (hlayout : Layout source t kind layout own) (h : SlotsAgree build layout slots kept)
    (hfilled : Filled fields slots others) (loc : Option Location) :
    Reads build source t kind loc fields others ((∀ l ∈ own, l.Kept) ∧ kept) := by
  cases hlayout <;> simp only [List.not_mem_nil, false_implies, implies_true, true_and,
    List.forall_mem_singleton]
  case program hkind => exact (buildsKind_program hkind h).reads hfilled (by simp [hkind]) loc
  case block hkind => exact (buildsKind_block hkind h).reads hfilled (by simp [hkind]) loc
  case empty hkind => exact reads_empty hkind h hfilled loc
  case expression hkind he =>
    exact (buildsKind_expression hkind he h).reads hfilled (by simp [hkind]) loc
  case declaration hkind hword htext hparts =>
    exact (buildsKind_declaration hkind hword htext hparts h).reads hfilled
      (by rcases hkind with hkind | hkind <;> simp [hkind]) loc
  case declarator hkind hid =>
    exact (buildsKind_declarator hkind hid h).reads hfilled (by simp [hkind]) loc
  case conditional hkind htest hconsequent halternate =>
    exact (buildsKind_conditional hkind htest hconsequent halternate h).reads hfilled
      (by simp [hkind]) loc
  case whileLoop hkind htest hbody =>
    exact (buildsKind_whileLoop hkind htest hbody h).reads hfilled (by simp [hkind]) loc
  case forLoop hkind hinit htest hupdate hbody =>
    exact (buildsKind_forLoop hkind hinit htest hupdate hbody h).reads hfilled (by simp [hkind]) loc
  case function hkind hid hformals hbody =>
    exact (buildsKind_function hkind hid hformals hbody h).reads hfilled (by simp [hkind]) loc
  case ret hkind => exact (buildsKind_ret hkind h).reads hfilled (by simp [hkind]) loc
  case identifier hkind htext =>
    exact (buildsKind_identifier hkind htext h).reads hfilled
      (by rcases hkind with hkind | hkind <;> simp [hkind]) loc
  case number hkind htext =>
    exact (buildsKind_number hkind htext h).reads hfilled (by simp [hkind]) loc
  case bigInteger hkind htext hraw => exact reads_bigInteger hkind htext hraw h hfilled loc
  case string hstring hvalue =>
    exact (buildsKind_string hstring hvalue h).reads hfilled (by simp [hstring.1]) loc
  case word hkind hvalue =>
    refine (buildsKind_word hkind hvalue h).reads hfilled ?_ loc
    rintro hempty
    rw [hkind] at hempty
    simp [hempty] at hvalue
  case binary hkind hword htext hleft hright =>
    exact (buildsKind_binary hkind hword htext hleft hright h).reads hfilled (by simp [hkind]) loc
  case assignment hkind hoperator hleft hright =>
    exact (buildsKind_assignment hkind hoperator hleft hright h).reads hfilled
      (by rcases hkind with hkind | hkind <;> simp [hkind]) loc

theorem Layout.of_empty {layout : List (String × Slot ConcreteTree)} {own : List ValuedToken}
    (h : Layout source t kind layout own) (hkind : t.kind = "empty_statement") :
    layout = [] ∧ own = [] := by
  cases h <;> simp_all [IsString]

end Kinds

/-- A standard form is an ESTree form of a tree that has the shape of the one that is built. It is
that one, up to spans and trimming, if all tokens are kept. -/
theorem Standard.encodes {source : ByteArray} {room : Nat} {t : ConcreteTree} {j : Json}
    {tokens : List ValuedToken} (h : Standard source room t j tokens) :
    ∃ m : Node, m.Encodes j ∧ PartAgrees (node source room) t m ∧
      (Matches (node source room) t m ↔ ∀ l ∈ tokens, l.Kept) := by
  induction h with
  | @object room t kind slots own fields parts loc tokens _ layout type span filled standard
      inOrder ih =>
    subst inOrder
    have hpick : ∀ p : ConcreteTree × Json, ∃ m : Node, p ∈ parts →
        m.Encodes p.2 ∧ PartAgrees (node source room) p.1 m ∧
          (Matches (node source room) p.1 m ↔ ∀ l ∈ tokens p, l.Kept) := by
      intro p
      by_cases hp : p ∈ parts
      · obtain ⟨m, hm⟩ := ih p hp
        exact ⟨m, fun _ => hm⟩
      · exact ⟨.foreign none "", fun h => absurd h hp⟩
    choose pick hpick using hpick
    obtain ⟨slots', hpaired, hfilled⟩ := filled.exchange pick
    have hparts := slotsAgree_of_paired hpaired
      (List.forall_mem_map.mpr fun p hp => (hpick p hp).2.1)
    obtain ⟨m, rfl, rfl, hslots, hforeign, hempty, hagrees⟩ := layout.reads hparts hfilled loc
    have hmatches : Matches (node source (room + 1)) t m ↔
        ∀ l ∈ own ++ parts.flatMap tokens, l.Kept := by
      rw [Matches, node, hagrees.exact, List.forall_mem_append, List.forall_mem_map,
        List.forall_mem_flatMap]
      exact and_congr_right fun _ => forall₂_congr fun p hp => (hpick p hp).2.2
    refine ⟨m, .intro type span hforeign hslots ?_, ⟨hagrees.shape, hempty, ?_⟩, hmatches⟩
    · exact List.forall_mem_map.mpr fun p hp => (hpick p hp).1
    · intro hkind
      obtain ⟨rfl, rfl⟩ := layout.of_empty hkind
      obtain rfl : parts = [] := filled
      exact hmatches.mpr (by simp)
  | @paren room t e j tokens hkind hpart hinner standard ih =>
    -- The form is that of the inside. Were that an empty statement, only one of the two would be
    -- dropped.
    obtain ⟨m, hencodes, hagrees, hmatches⟩ := ih
    have hbuild : node source (room + 1) t = node source room e := by
      simp [node, nodeWith, hkind, hpart, need, ok_bind]
    refine ⟨m, hencodes, ⟨?_, ?_, ?_⟩, ?_⟩
    · rw [hbuild]
      exact hagrees.shape
    · simp [hagrees.isEmpty, hinner, hkind]
    · simp [hkind]
    · rwa [Matches, hbuild]

theorem nodeWith_program {build : ConcreteTree → Except Error Node} {source : ByteArray}
    {t : ConcreteTree} {n : Node} (hkind : t.kind = "program")
    (h : nodeWith build source t = .ok n) :
    ∃ body, n = .program t.location body := by
  rw [nodeWith, hkind] at h
  obtain ⟨body, -, h⟩ := bind_eq_ok.mp h
  cases h
  exact ⟨body, rfl⟩

/-- The tree of a program is built if its nodes are. -/
theorem ofConcrete_program {limits : Limits} {source : ByteArray} {root : ConcreteTree}
    (herror : root.hasError = false) (hkind : root.kind = "program") :
    Node.ofConcrete limits source root = node source limits.construction root := by
  cases hbuilt : node source limits.construction root with
  | error e => simp [Node.ofConcrete, herror, hbuilt, bind, Except.bind]
  | ok n =>
    have hprogram : ∃ body, n = .program root.location body := by
      cases hroom : limits.construction with
      | zero =>
        rw [hroom] at hbuilt
        cases hbuilt
      | succ room =>
        rw [hroom] at hbuilt
        exact nodeWith_program hkind hbuilt
    obtain ⟨body, rfl⟩ := hprogram
    simp [Node.ofConcrete, herror, hbuilt, withBody, bind, Except.bind]

end Concrete

theorem Lowering.not_isOf_foreign {t : Segment} {loc : Option Location} {kind : String}
    (h : Lowers t) : ¬ t.phrase.IsOf (.foreign loc kind) := by
  have hexpr {f : Bool} {c c' : Counters} {value : Operand} {code : List Instruction} :
      ¬ Lowers ⟨f, c, .expr (.foreign loc kind) value, code, c'⟩ := by
    rintro ⟨rule, -⟩
    cases rule
  obtain ⟨f, c, p, code, c'⟩ := t
  rintro (hp | ⟨value, hp⟩)
  · obtain rfl : p = .stmt (.foreign loc kind) := hp
    obtain ⟨rule, parts⟩ := h
    cases rule with
    | bare => exact hexpr (parts _ (List.mem_singleton_self _))
  · obtain rfl : p = .expr (.foreign loc kind) value := hp
    exact hexpr h

/-- A tree with a node of a foreign kind is not lowered. -/
theorem Lowering.no_foreign_of_lower {limits : Limits} {tree : Node} {code : List Instruction}
    (h : tree.lower limits = .ok code) (loc : Option Location) (kind : String) :
    ¬ Node.Subtree (.foreign loc kind) tree := by
  intro hforeign
  obtain ⟨c, hlowers⟩ := lowers_of_lower h
  obtain ⟨_, _, hname⟩ | ⟨off, t, ht, hof⟩ :=
    hlowers.occurs_of_subtree (List.mem_singleton_self tree) hforeign
  · cases hname
  · exact not_isOf_foreign ht.lowers hof

open Concrete in
/-- The tree that is built for a concrete tree of a program and the one that is read from its
standard ESTree form are the same up to spans if and only if no list of statements has an empty one,
no literal is a big integer and every literal and name is kept. With the latter alone the built tree
is the trimmed one, and in any case the two are alike but for the values of literals, names, and
what trimming changes. Trees that are the same compile alike, and one that is not trimmed never
compiles. -/
theorem inputs_agree_iff {limits : Limits} {source : ByteArray} {root : ConcreteTree} {j : Json}
    {tokens : List ValuedToken} (herror : root.hasError = false) (hkind : root.kind = "program")
    (h : Standard source limits.construction root j tokens) :
    ∃ m, (Node.ofEstree j =
        if m.height ≤ Estree.pathLimit then .ok m else .error (.tooDeep .validation)) ∧
      ((∃ n, Node.ofConcrete limits source root = .ok n ∧ n.edit .unplaced = m.edit .unplaced) ↔
        m.Trimmed ∧ ∀ l ∈ tokens, l.Kept) ∧
      ((∃ n, Node.ofConcrete limits source root = .ok n ∧
          n.edit .unplaced = (m.edit .trim).edit .unplaced) ↔ ∀ l ∈ tokens, l.Kept) ∧
      (∀ n, Node.ofConcrete limits source root = .ok n →
        n.edit .shape = (m.edit .trim).edit .shape ∧
          (n.edit .unplaced = m.edit .unplaced → ∀ settings names,
            unplacing Compiled.unplaced (n.compile settings names) =
              unplacing Compiled.unplaced (m.compile settings names))) ∧
      (¬ m.Trimmed → ∀ limits, ∃ e, m.lower limits = .error e) := by
  obtain ⟨m, hencodes, hagrees, hmatches⟩ := h.encodes
  rw [ofConcrete_program herror hkind]
  refine ⟨m, hencodes.ofEstree_eq, ?_, hmatches, ?_, ?_⟩
  · rw [← hmatches]
    constructor
    · rintro ⟨n, hn, heq⟩
      -- The shapes of the two are one, so trimming changes nothing.
      have hshape := congrArg (Node.edit .shape) heq
      rw [Node.edit_shape_unplaced, Node.edit_shape_unplaced, hagrees.shape n hn] at hshape
      have htrimmed := (Node.edit_trim_eq_iff Node.Edit.keepsNodes_shape m).mp hshape
      have htrim := (Node.edit_trim_eq_iff Node.Edit.keepsNodes_unplaced m).mpr htrimmed
      exact ⟨htrimmed, n, hn, heq.trans htrim.symm⟩
    · rintro ⟨htrimmed, n, hn, heq⟩
      have htrim := (Node.edit_trim_eq_iff Node.Edit.keepsNodes_unplaced m).mpr htrimmed
      exact ⟨n, hn, heq.trans htrim⟩
  · intro n hn
    exact ⟨hagrees.shape n hn, fun heq => compile_congr heq⟩
  · intro htrimmed limits
    cases hlower : m.lower limits with
    | error e => exact ⟨e, rfl⟩
    | ok code =>
      exact absurd (Node.trimmed_of_supported (Lowering.no_foreign_of_lower hlower)) htrimmed

/-- The concrete tree of `if((a));//c`. -/
def guardedNothing : ConcreteTree :=
  .node "program" ⟨0, 11, 0, 0, 0, 11⟩ true none {}
    [.node "if_statement" ⟨0, 8, 0, 0, 0, 8⟩ true none {}
      [.node "if" ⟨0, 2, 0, 0, 0, 2⟩ false none {} [],
        .node "parenthesized_expression" ⟨2, 7, 0, 2, 0, 7⟩ true (some "condition") {}
          [.node "(" ⟨2, 3, 0, 2, 0, 3⟩ false none {} [],
            .node "parenthesized_expression" ⟨3, 6, 0, 3, 0, 6⟩ true none {}
              [.node "identifier" ⟨4, 5, 0, 4, 0, 5⟩ true none {} []]],
        .node "empty_statement" ⟨7, 8, 0, 7, 0, 8⟩ true (some "consequence") {} []],
      .node "comment" ⟨8, 11, 0, 8, 0, 11⟩ true none {} []]

def guardedNothingJson : Json :=
  .object [("type", .ofString "Program"), ("body", .arr [.object [("type", .ofString "IfStatement"),
    ("test", .object [("type", .ofString "Identifier"), ("name", .ofString "a")]),
    ("consequent", .object [("type", .ofString "EmptyStatement")]), ("alternate", .null)]])]

open Concrete in
theorem standard_guardedNothingJson :
    Standard "if((a));//c".toUTF8 (Limits.construction {}) guardedNothing guardedNothingJson
      [.name ⟨[.plain 'a']⟩] := by
  refine @Standard.object _ _ _ _ _ _ _ _ _ (fun _ => [.name ⟨[.plain 'a']⟩]) _ (.program rfl) rfl
    .omitted ⟨[(_, _)], _, rfl, ⟨rfl, rfl⟩, rfl⟩ ?_ rfl
  rw [List.append_nil, List.forall_mem_singleton]
  refine @Standard.object _ _ _ _ _ _ _ _ _
    (fun p => if p.1.kind = "empty_statement" then [] else [.name ⟨[.plain 'a']⟩]) _
    (.conditional rfl rfl rfl .none) rfl .omitted
    ⟨[(_, _)], _, rfl, ⟨_, rfl, rfl⟩, [(_, _)], _, rfl, ⟨_, rfl, rfl⟩, [], _, rfl, ⟨.inr rfl, rfl⟩,
      rfl⟩ ?_ rfl
  rw [List.append_nil, List.append_nil, List.singleton_append, List.forall_mem_cons,
    List.forall_mem_singleton]
  constructor
  · refine .paren rfl rfl (by decide) (.paren rfl rfl (by decide) ?_)
    exact @Standard.object _ _ _ _ _ [.name ⟨[.plain 'a']⟩] _ _ _ (fun _ => []) _
      (.identifier (.inl rfl) (by cbv)) rfl .omitted ⟨[], _, rfl, ⟨rfl, rfl⟩, rfl⟩ (by simp) rfl
  · exact @Standard.object _ _ _ _ _ [] _ _ _ (fun _ => []) _ (.empty rfl) rfl .omitted rfl
      (by simp) rfl

open Concrete in
/-- Comments, parentheses and the empty branch leave no difference. -/
theorem guardedNothing_inputs_agree :
    guardedNothing.hasError = false ∧ guardedNothing.kind = "program" ∧
      Standard "if((a));//c".toUTF8 (Limits.construction {}) guardedNothing guardedNothingJson
        [.name ⟨[.plain 'a']⟩] ∧
      ∃ n m, Node.ofConcrete {} "if((a));//c".toUTF8 guardedNothing = .ok n ∧
        Node.ofEstree guardedNothingJson = .ok m ∧ n.edit .unplaced = m.edit .unplaced ∧
        ∀ settings names, unplacing Compiled.unplaced (n.compile settings names) =
          unplacing Compiled.unplaced (m.compile settings names) := by
  obtain ⟨m, hread, hagree, -, hbuilt, -⟩ := inputs_agree_iff rfl rfl standard_guardedNothingJson
  have htree : Node.ofEstree guardedNothingJson = .ok (.program none
      [.conditional none (.identifier none "a") (.foreign none "EmptyStatement") none]) := rfl
  rw [htree] at hread
  split at hread
  · cases hread
    have htrimmed := (Node.edit_trim_eq_iff Node.Edit.keepsNodes_unplaced (.program none
      [.conditional none (.identifier none "a") (.foreign none "EmptyStatement") none])).mp
      (by simp [Node.edit, Node.isEmptyStatement])
    obtain ⟨n, hn, heq⟩ := hagree.mpr ⟨htrimmed, by
      simp [ValuedToken.Kept, WrittenName.Kept, NameItem.isPlain]⟩
    exact ⟨rfl, rfl, standard_guardedNothingJson, n, _, hn, htree, heq, (hbuilt n hn).2 heq⟩
  · cases hread

/-- The concrete tree of `;`. -/
def loneSemicolon : ConcreteTree :=
  .node "program" ⟨0, 1, 0, 0, 0, 1⟩ true none {}
    [.node "empty_statement" ⟨0, 1, 0, 0, 0, 1⟩ true none {} []]

def loneSemicolonJson : Json :=
  .object [("type", .ofString "Program"),
    ("body", .arr [.object [("type", .ofString "EmptyStatement")]])]

open Concrete in
/-- An empty program has no code, but its ESTree form is refused. -/
theorem loneSemicolon_inputs_disagree :
    loneSemicolon.hasError = false ∧ loneSemicolon.kind = "program" ∧
      Standard ";".toUTF8 (Limits.construction {}) loneSemicolon loneSemicolonJson [] ∧
      ∃ n m, Node.ofConcrete {} ";".toUTF8 loneSemicolon = .ok n ∧
        Node.ofEstree loneSemicolonJson = .ok m ∧ n.edit .unplaced ≠ m.edit .unplaced ∧
        n.lower {} = .ok [] ∧
        m.lower {} = .error (.unsupportedConstruct "EmptyStatement" none "") := by
  refine ⟨rfl, rfl, ?_, _, _, rfl, rfl, ?_, rfl, rfl⟩
  · refine @Standard.object _ _ _ _ _ _ _ _ _ (fun _ => []) _ (.program rfl) rfl .omitted
      ⟨[(_, _)], _, rfl, ⟨rfl, rfl⟩, rfl⟩ ?_ rfl
    rw [List.append_nil, List.forall_mem_singleton]
    exact @Standard.object _ _ _ _ _ [] _ _ _ (fun _ => []) _ (.empty rfl) rfl .omitted rfl
      (by simp) rfl
  · simp [Node.edit]

end Sil
