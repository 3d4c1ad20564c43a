import Mathlib
import Sil.Proofs.EstreeEncoding

/-!
What the reading of ESTree JSON looks at. The kind that an object names selects the fields that are
read from it; further fields are never looked at, and of an object of a foreign kind nothing but its
kind and its span is. Main statement: values that differ elsewhere only, at any depth, are read as
the same tree or refused with the same error, also where they are malformed or too deep.
-/
namespace Sil

namespace Estree

inductive FieldShape where
  | child
  | optional
  | list
  | text
  | value

def fieldsRead : String → List (String × FieldShape)
  | "Program" => [("body", .list)]
  | "VariableDeclaration" => [("kind", .text), ("declarations", .list)]
  | "VariableDeclarator" => [("id", .child), ("init", .optional)]
  | "Literal" => [("value", .value), ("raw", .text)]
  | "Identifier" => [("name", .text)]
  | "BinaryExpression" => [("operator", .text), ("left", .child), ("right", .child)]
  | "LogicalExpression" => [("operator", .text), ("left", .child), ("right", .child)]
  | "AssignmentExpression" => [("operator", .text), ("left", .child), ("right", .child)]
  | "ExpressionStatement" => [("expression", .child)]
  | "BlockStatement" => [("body", .list)]
  | "IfStatement" => [("test", .child), ("consequent", .child), ("alternate", .optional)]
  | "WhileStatement" => [("test", .child), ("body", .child)]
  | "ForStatement" =>
    [("init", .optional), ("test", .optional), ("update", .optional), ("body", .child)]
  | "FunctionDeclaration" => [("id", .child), ("params", .list), ("body", .child)]
  | "ReturnStatement" => [("argument", .optional)]
  | _ => []

/-- An object is read as a node of a supported kind: it names the kind, and no mark of a foreign
literal stands beside it. -/
def Selects (fields : Fields) (kind : String) : Prop :=
  (∃ j, field? fields "type" = some j ∧ j.asString = .ok kind) ∧ ¬NamesForeign fields kind

/-- Two values of a field are read alike, if nodes in the given relation are. A value that is no
list is refused where a list is asked for, whatever it holds, and so is one that is no string for a
text. -/
inductive SameField (same : Json → Json → Prop) : FieldShape → Option Json → Option Json → Prop
  | equal {shape : FieldShape} {field : Option Json} : SameField same shape field field
  | child {j j' : Json} (h : same j j') : SameField same .child (some j) (some j')
  | optional {j j' : Json} (h : same j j') : SameField same .optional (some j) (some j')
  | list {items items' : List Json} (h : List.Forall₂ same items items') :
      SameField same .list (some (.arr items)) (some (.arr items'))
  | noList {j j' : Json} (h : ∀ items, j ≠ .arr items) (h' : ∀ items, j' ≠ .arr items) :
      SameField same .list (some j) (some j')
  | noText {j j' : Json} (h : ∀ s, j ≠ .str s) (h' : ∀ s, j' ≠ .str s) :
      SameField same .text (some j) (some j')

/-- Values in the place of a node that differ in unread data only. -/
inductive SameData : Json → Json → Prop
  | noObject {j j' : Json} (h : ∀ fields, j ≠ .obj fields) (h' : ∀ fields, j' ≠ .obj fields)
      (null : j = .null ↔ j' = .null) : SameData j j'
  | foreign {fields fields' : Fields} (h : ∀ kind, ¬Selects fields kind)
      (h' : ∀ kind, ¬Selects fields' kind) (type : field? fields "type" = field? fields' "type")
      (loc : field? fields "loc" = field? fields' "loc") : SameData (.obj fields) (.obj fields')
  | supported {fields fields' : Fields} {kind : String} (h : Selects fields kind)
      (h' : Selects fields' kind) (loc : field? fields "loc" = field? fields' "loc")
      (parts : ∀ p ∈ fieldsRead kind,
      SameField SameData p.2 (field? fields p.1) (field? fields' p.1)) :
      SameData (.obj fields) (.obj fields')

variable {fields fields' : Fields} {kind key : String} {j j' : Json}

theorem SameData.refl (j : Json) : SameData j j := by
  cases j with
  | obj fields =>
    by_cases h : ∃ kind, Selects fields kind
    · obtain ⟨kind, hkind⟩ := h
      exact .supported hkind hkind rfl fun _ _ => .equal
    · rw [not_exists] at h
      exact .foreign h h rfl rfl
  | _ => exact .noObject (by simp) (by simp) Iff.rfl

theorem SameData.null_iff (h : SameData j j') : j = .null ↔ j' = .null := by
  cases h with
  | noObject _ _ null => exact null
  | foreign => simp
  | supported => simp

theorem not_selects_of_namesForeign {named : String}
    (htype : field? fields "type" = some (.ofString named)) (h : NamesForeign fields named) :
    ∀ kind, ¬Selects fields kind := by
  rintro kind ⟨⟨j, hj, hkind⟩, hsupported⟩
  cases htype.symm.trans hj
  rw [Json.asString_ofString] at hkind
  cases hkind
  exact hsupported h

theorem kind?_eq_some_iff : kind? (.obj fields) = .ok (some kind) ↔ Selects fields kind := by
  rw [Selects, NamesForeign, kind?]
  cases htype : field? fields "type" with
  | none => simp
  | some j =>
    cases j with
    | str s =>
      cases hs : s.toString? with
      | none => simp [Json.asString, hs]
      | some named =>
        simp only [Option.some.injEq, exists_eq_left', Json.asString, hs, Except.ok.injEq]
        split
        next hmarked =>
          rw [Bool.and_eq_true, decide_eq_true_eq, Bool.or_eq_true] at hmarked
          simp only [Except.ok.injEq, reduceCtorEq, false_iff, not_and, not_not]
          rintro rfl
          exact .inr hmarked
        next hmarked =>
          rw [Bool.and_eq_true, decide_eq_true_eq, Bool.or_eq_true] at hmarked
          by_cases hnamed : named ∈ Node.supportedKinds
          · simp only [List.contains_iff_mem, hnamed, if_true, Except.ok.injEq, Option.some.injEq]
            refine ⟨?_, And.left⟩
            rintro rfl
            exact ⟨rfl, not_or.mpr ⟨not_not.mpr hnamed, hmarked⟩⟩
          · simp only [List.contains_iff_mem, hnamed, if_false, Except.ok.injEq, reduceCtorEq,
              false_iff, not_and, not_not]
            rintro rfl
            exact .inl hnamed
    | _ => simp [Json.asString]

/-- A kind that is a string can be looked up; that of an object which is not read as a supported
node is foreign. -/
theorem kind?_eq_none {s : Text} (htype : field? fields "type" = some (.str s))
    (h : ∀ kind, ¬Selects fields kind) : kind? (.obj fields) = .ok none := by
  have hok : ∃ found, kind? (.obj fields) = .ok found := by
    rw [kind?, htype]
    dsimp only
    split
    · exact ⟨_, rfl⟩
    · split <;> exact ⟨_, rfl⟩
  obtain ⟨found, hfound⟩ := hok
  cases found with
  | none => exact hfound
  | some kind => exact absurd (kind?_eq_some_iff.mp hfound) (h kind)

theorem SameData.kind?_eq (h : SameData j j') : kind? j = kind? j' := by
  cases h with
  | noObject h h' _ =>
    have hnone : ∀ {j : Json}, (∀ fields, j ≠ .obj fields) → kind? j = .ok none := by
      intro j h
      cases j with
      | obj fields => exact absurd rfl (h fields)
      | _ => rfl
    rw [hnone h, hnone h']
  | @foreign fields fields' h h' type _ =>
    cases htype : field? fields' "type" with
    | none => simp [kind?, type, htype]
    | some t =>
      cases t with
      | str s => rw [kind?_eq_none (type.trans htype) h, kind?_eq_none htype h']
      | _ => simp [kind?, type, htype]
  | supported h h' _ _ => rw [kind?_eq_some_iff.mpr h, kind?_eq_some_iff.mpr h']

section
variable {read : Json → Except Fault (Checked Node)}

theorem all_congr {items items' : List Json}
    (h : List.Forall₂ (fun j j' => read j = read j') items items') :
    all read items = all read items' := by
  induction h with
  | nil => rfl
  | cons hfirst _ ih => rw [all, all, hfirst, ih]

theorem span_congr (h : field? fields "loc" = field? fields' "loc") :
    span fields = span fields' := by
  rw [span, span, h]

def ReadsAlike (read : Json → Except Fault (Checked Node)) (fields fields' : Fields)
    (key : String) : FieldShape → Prop
  | .child => child read fields key = child read fields' key
  | .optional => child? read fields key = child? read fields' key
  | .list => nodes read fields key = nodes read fields' key
  | .text => ∀ default, text fields key default = text fields' key default
  | .value => field? fields key = field? fields' key

theorem ReadsAlike.of_eq (h : field? fields key = field? fields' key) (shape : FieldShape) :
    ReadsAlike read fields fields' key shape := by
  cases shape with
  | child => simp only [ReadsAlike, child, h]
  | optional => simp only [ReadsAlike, child?, h]
  | list => simp only [ReadsAlike, nodes, h]
  | text => simp only [ReadsAlike, text, h, implies_true]
  | value => exact h

theorem foreign_congr (htype : field? fields "type" = field? fields' "type")
    (hloc : field? fields "loc" = field? fields' "loc") : foreign fields = foreign fields' := by
  have htext : ReadsAlike (node 0) fields fields' "type" .text := .of_eq htype .text
  rw [foreign, foreign, htext, span_congr hloc]

theorem readsAlike_of_sameField {shape : FieldShape}
    (hread : ∀ j j', SameData j j' → read j = read j')
    (h : SameField SameData shape (field? fields key) (field? fields' key)) :
    ReadsAlike read fields fields' key shape := by
  generalize hfield : field? fields key = field at h
  generalize hfield' : field? fields' key = field' at h
  cases h with
  | equal => exact .of_eq (hfield.trans hfield'.symm) shape
  | child h => simp only [ReadsAlike, child, hfield, hfield', hread _ _ h]
  | @optional j j' h =>
    by_cases hnull : j = .null
    · have hnull' := h.null_iff.mp hnull
      simp only [ReadsAlike, child?, hfield, hfield', hnull, hnull']
    · have hnull' := mt h.null_iff.mpr hnull
      simp [ReadsAlike, child?, hfield, hfield', hread _ _ h]
  | list h =>
    have hall := all_congr (h.imp hread)
    simp only [ReadsAlike, nodes, hfield, hfield', hall]
  | noList h h' => simp [ReadsAlike, nodes, hfield, hfield']
  | noText h h' => simp [ReadsAlike, text, hfield, hfield', Json.asString]

/-- A node of a supported kind is read from its span and the fields of its kind. -/
theorem supported_congr (hkind : kind ∈ Node.supportedKinds)
    (hloc : field? fields "loc" = field? fields' "loc")
    (h : ∀ p ∈ fieldsRead kind, ReadsAlike read fields fields' p.1 p.2) :
    supported read kind fields = supported read kind fields' := by
  have hspan := span_congr hloc
  simp only [Node.supportedKinds, List.mem_cons, List.not_mem_nil, or_false] at hkind
  rcases hkind with
    rfl | rfl | rfl | rfl | rfl | rfl | rfl | rfl | rfl | rfl | rfl | rfl | rfl | rfl | rfl <;>
    simp only [fieldsRead, List.forall_mem_cons, ReadsAlike, List.not_mem_nil, false_implies,
      implies_true, and_true] at h <;>
    simp [supported, hspan, h]

end

theorem node_of_noObject (room : Nat) (h : ∀ fields, j ≠ .obj fields) :
    node (room + 1) j = .ok (.invalid (.notRecord "OpaqueNode") false) := by
  cases j with
  | obj fields => exact absurd rfl (h fields)
  | _ => rfl

/-- Values that differ in unread data only are read alike, however many more nodes their paths may
have. -/
theorem SameData.node_eq (room : Nat) (h : SameData j j') : node room j = node room j' := by
  induction room generalizing j j' with
  | zero => rw [node, node, h.kind?_eq]
  | succ room ih =>
    have hkind := h.kind?_eq
    cases h with
    | noObject h h' _ => rw [node_of_noObject room h, node_of_noObject room h']
    | @foreign fields fields' h h' type loc =>
      rw [node, node, hkind]
      cases hfound : kind? (.obj fields') with
      | error f => rfl
      | ok found =>
        cases found with
        | none => exact foreign_congr type loc
        | some kind => exact absurd (kind?_eq_some_iff.mp hfound) (h' kind)
    | @supported fields fields' kind h h' loc parts =>
      have hsupported : kind ∈ Node.supportedKinds := not_not.mp (not_or.mp h.2).1
      rw [node, node, kind?_eq_some_iff.mpr h, kind?_eq_some_iff.mpr h']
      exact supported_congr hsupported loc fun p hp =>
        readsAlike_of_sameField (fun _ _ => ih) (parts p hp)

end Estree

/-- Reading depends on recognised data only: values that differ elsewhere are read as the same tree
or refused with the same error. -/
theorem ofEstree_eq_of_sameData {j j' : Json} (h : Estree.SameData j j') :
    Node.ofEstree j = Node.ofEstree j' := by
  rw [Node.ofEstree, Node.ofEstree, h.node_eq]

/-- `f(); return` as other tools write it: with further fields, in another order, and with a call
that could not be read if it were looked into. -/
def annotatedCall : Json :=
  .object [("sourceType", .ofString "script"), ("body", .arr [.object
    [("type", .ofString "ExpressionStatement"), ("range", .arr [.bool true]), ("expression", .object
      [("type", .ofString "CallExpression"), ("callee", .object [("type", .arr [])]),
        ("loc", .null)])],
    .object [("type", .ofString "ReturnStatement")]]), ("type", .ofString "Program")]

def bareCall : Json :=
  .object [("type", .ofString "Program"), ("body", .arr [.object
    [("expression", .object [("loc", .null), ("type", .ofString "CallExpression")]),
      ("type", .ofString "ExpressionStatement")],
    .object [("type", .ofString "ReturnStatement")]])]

open Estree in
theorem sameData_annotatedCall : SameData annotatedCall bareCall := by
  refine @SameData.supported _ _ "Program"
    ⟨⟨_, rfl, rfl⟩, by simp [NamesForeign, Node.supportedKinds]⟩
    ⟨⟨_, rfl, rfl⟩, by simp [NamesForeign, Node.supportedKinds]⟩ rfl ?_
  rw [fieldsRead, List.forall_mem_singleton]
  refine .list (.cons ?_ (.cons (.refl _) .nil))
  refine @SameData.supported _ _ "ExpressionStatement"
    ⟨⟨_, rfl, rfl⟩, by simp [NamesForeign, Node.supportedKinds]⟩
    ⟨⟨_, rfl, rfl⟩, by simp [NamesForeign, Node.supportedKinds]⟩ rfl ?_
  rw [fieldsRead, List.forall_mem_singleton]
  exact .child (.foreign (not_selects_of_namesForeign rfl (.inl (by decide)))
    (not_selects_of_namesForeign rfl (.inl (by decide))) rfl rfl)

theorem annotatedCall_read_alike :
    Estree.SameData annotatedCall bareCall ∧ Node.ofEstree annotatedCall = Node.ofEstree bareCall ∧
      Node.ofEstree annotatedCall =
        .ok (.program none [.expression none (.foreign none "CallExpression"), .ret none none]) :=
  ⟨sameData_annotatedCall, ofEstree_eq_of_sameData sameData_annotatedCall, rfl⟩

end Sil
