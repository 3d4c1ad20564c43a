import Mathlib
import Sil.Proofs.Subtree

/-!
Edits of a syntax tree that go over all its nodes: the spans, the values of literals, the names and
the foreign kinds are replaced, and some statements are left out of the lists of statements.
`unplaced` forgets where the nodes stand, `shape` also what the literals and names in them are, and
`trim` makes a tree that was read from ESTree JSON the one that its source text gives.
-/
namespace Sil

namespace Node

/-- An empty statement, which is of no supported kind. -/
def isEmptyStatement : Node → Bool
  | .foreign _ kind => kind = "EmptyStatement"
  | _ => false

/-- What an edit does to a span, to a value or a name, to a foreign kind and to the statements in a
list. -/
structure Edit where
  span : Option Location → Option Location := id
  value : Json → Json := id
  name : String → String := id
  kind : String → String := id
  drops : Node → Bool := fun _ => false

mutual

def edit (e : Edit) : Node → Node
  | .program loc body => .program (e.span loc) (editBody e body)
  | .declaration loc kind declarators => .declaration (e.span loc) kind (editAll e declarators)
  | .declarator loc id init => .declarator (e.span loc) (id.edit e) (editSome e init)
  | .literal loc value raw => .literal (e.span loc) (e.value value) raw
  | .identifier loc name => .identifier (e.span loc) (e.name name)
  | .binary loc operator left right => .binary (e.span loc) operator (left.edit e) (right.edit e)
  | .logical loc operator left right => .logical (e.span loc) operator (left.edit e) (right.edit e)
  | .assignment loc operator left right =>
    .assignment (e.span loc) operator (left.edit e) (right.edit e)
  | .expression loc inner => .expression (e.span loc) (inner.edit e)
  | .block loc body => .block (e.span loc) (editBody e body)
  | .conditional loc test consequent alternate =>
    .conditional (e.span loc) (test.edit e) (consequent.edit e) (editSome e alternate)
  | .whileLoop loc test body => .whileLoop (e.span loc) (test.edit e) (body.edit e)
  | .forLoop loc init test update body =>
    .forLoop (e.span loc) (editSome e init) (editSome e test) (editSome e update) (body.edit e)
  | .function loc id params body =>
    .function (e.span loc) (id.edit e) (editAll e params) (body.edit e)
  | .ret loc argument => .ret (e.span loc) (editSome e argument)
  | .foreign loc kind => .foreign (e.span loc) (e.kind kind)

def editBody (e : Edit) : List Node → List Node
  | [] => []
  | n :: rest => if e.drops n then editBody e rest else n.edit e :: editBody e rest

def editAll (e : Edit) : List Node → List Node
  | [] => []
  | n :: rest => n.edit e :: editAll e rest

def editSome (e : Edit) : Option Node → Option Node
  | none => none
  | some n => some (n.edit e)

end

variable {e : Edit}

@[simp] theorem editBody_eq (ns : List Node) :
    editBody e ns = (ns.filter (!e.drops ·)).map (edit e) := by
  induction ns with
  | nil => simp [editBody]
  | cons n rest ih => by_cases h : e.drops n <;> simp [editBody, ih, h]

@[simp] theorem editAll_eq (ns : List Node) : editAll e ns = ns.map (edit e) := by
  induction ns with
  | nil => simp [editAll]
  | cons n rest ih => simp [editAll, ih]

@[simp] theorem editSome_eq (n : Option Node) : editSome e n = n.map (edit e) := by
  cases n <;> simp [editSome]

namespace Edit

def unplaced : Edit where
  span _ := none

def shape : Edit where
  span _ := none
  value _ := .null
  name _ := ""

/-- Leaves out the empty statements in lists, and calls a literal of a foreign kind a big
integer. -/
def trim : Edit where
  kind kind := if kind = "Literal" then "BigIntLiteral" else kind
  drops := isEmptyStatement

structure KeepsNodes (e : Edit) : Prop where
  kind : ∀ kind, e.kind kind = kind
  drops : ∀ n, e.drops n = false

theorem keepsNodes_unplaced : unplaced.KeepsNodes := ⟨fun _ => rfl, fun _ => rfl⟩

theorem keepsNodes_shape : shape.KeepsNodes := ⟨fun _ => rfl, fun _ => rfl⟩

@[simp] theorem unplaced_span (loc : Option Location) : unplaced.span loc = none := rfl

@[simp] theorem unplaced_value (value : Json) : unplaced.value value = value := rfl

@[simp] theorem unplaced_name (name : String) : unplaced.name name = name := rfl

@[simp] theorem unplaced_kind (kind : String) : unplaced.kind kind = kind := rfl

@[simp] theorem unplaced_drops (n : Node) : unplaced.drops n = false := rfl

@[simp] theorem shape_span (loc : Option Location) : shape.span loc = none := rfl

@[simp] theorem shape_value (value : Json) : shape.value value = .null := rfl

@[simp] theorem shape_name (name : String) : shape.name name = "" := rfl

@[simp] theorem shape_kind (kind : String) : shape.kind kind = kind := rfl

@[simp] theorem shape_drops (n : Node) : shape.drops n = false := rfl

@[simp] theorem trim_span (loc : Option Location) : trim.span loc = loc := rfl

@[simp] theorem trim_value (value : Json) : trim.value value = value := rfl

@[simp] theorem trim_name (name : String) : trim.name name = name := rfl

@[simp] theorem trim_kind (kind : String) :
    trim.kind kind = if kind = "Literal" then "BigIntLiteral" else kind := rfl

@[simp] theorem trim_drops (n : Node) : trim.drops n = n.isEmptyStatement := rfl

end Edit

theorem sizeOf_lt_of_mem_children {m n : Node} (h : m ∈ n.children) : sizeOf m < sizeOf n := by
  have hlist (ms : List Node) (h : m ∈ ms) : sizeOf m < sizeOf ms := List.sizeOf_lt_of_mem h
  have hsome (o : Option Node) (h : m ∈ o.toList) : sizeOf m < sizeOf o := by
    cases o with
    | none => cases h
    | some k =>
      obtain rfl := List.mem_singleton.mp h
      simp
  cases n <;>
    simp only [children, List.mem_cons, List.mem_append, List.not_mem_nil, or_false] at h <;>
    grind

/-- What holds of a node when it holds of its children holds of all nodes. -/
theorem children_induction {P : Node → Prop} (h : ∀ n, (∀ m ∈ n.children, P m) → P n) (n : Node) :
    P n :=
  h n fun m hm =>
    have := sizeOf_lt_of_mem_children hm
    children_induction h m
termination_by n

def IsTrim : Node → Prop
  | .program _ body => ∀ n ∈ body, n.isEmptyStatement = false
  | .block _ body => ∀ n ∈ body, n.isEmptyStatement = false
  | .foreign _ kind => kind ≠ "Literal"
  | _ => True

/-- No list of statements has an empty one, and no literal is of a foreign kind. -/
def Trimmed (t : Node) : Prop := ∀ m, Subtree m t → m.IsTrim

theorem trimmed_iff {n : Node} : n.Trimmed ↔ n.IsTrim ∧ ∀ m ∈ n.children, m.Trimmed :=
  forall_subtree

/-- A trimmed list of statements differs from the list if one of them is dropped or changed. -/
theorem map_filter_eq_map_iff {f g : Node → Node} {drops : Node → Bool} {ns : List Node} :
    (ns.filter (!drops ·)).map f = ns.map g ↔ ∀ n ∈ ns, drops n = false ∧ f n = g n := by
  constructor
  · intro h
    -- Lists of one length: nothing was dropped.
    have hlength := congrArg List.length h
    rw [List.length_map, List.length_map, List.length_filter_eq_length_iff] at hlength
    rw [List.filter_eq_self.mpr hlength, List.map_inj_left] at h
    intro n hn
    exact ⟨by simpa using hlength n hn, h n hn⟩
  · intro h
    rw [List.filter_eq_self.mpr fun n hn => by simp [(h n hn).1], List.map_inj_left]
    exact fun n hn => (h n hn).2

theorem optionMap_eq_iff {f g : Node → Node} {n : Option Node} :
    n.map f = n.map g ↔ ∀ m, n = some m → f m = g m := by
  cases n <;> simp

/-- Before an edit that keeps all nodes, trimming leaves a node alone if it changes neither the node
itself nor a child. -/
theorem edit_trim_eq_iff_children (he : e.KeepsNodes) (n : Node) :
    (n.edit .trim).edit e = n.edit e ↔
      n.IsTrim ∧ ∀ m ∈ n.children, (m.edit .trim).edit e = m.edit e := by
  cases n with
  | program loc body => simp [edit, IsTrim, children, map_filter_eq_map_iff, forall_and, he.drops]
  | block loc body => simp [edit, IsTrim, children, map_filter_eq_map_iff, forall_and, he.drops]
  | function loc id params body =>
    simp [edit, IsTrim, children, or_imp, forall_and]
  | forLoop loc init test update body =>
    simp [edit, IsTrim, children, optionMap_eq_iff, or_imp, forall_and]
  | foreign loc kind =>
    by_cases h : kind = "Literal"
    · simp [edit, IsTrim, children, h, he.kind]
    · simp [edit, IsTrim, children, h, he.kind]
  | _ => simp [edit, IsTrim, children, optionMap_eq_iff]

/-- Before such an edit, trimming changes exactly the trees that are not yet trimmed. -/
theorem edit_trim_eq_iff (he : e.KeepsNodes) (n : Node) :
    (n.edit .trim).edit e = n.edit e ↔ n.Trimmed := by
  induction n using children_induction with
  | h n ih =>
    rw [trimmed_iff, edit_trim_eq_iff_children he]
    exact and_congr_right fun _ => forall₂_congr ih

/-- The shape of a tree has nothing to do with where its nodes stand. -/
theorem edit_shape_unplaced (n : Node) : (n.edit .unplaced).edit .shape = n.edit .shape := by
  induction n using children_induction with
  | h n ih => cases n <;> simp_all [edit, children, optionMap_eq_iff]

/-- A tree without foreign nodes is trimmed. -/
theorem trimmed_of_supported {t : Node} (h : ∀ loc kind, ¬ Subtree (.foreign loc kind) t) :
    t.Trimmed := by
  intro m hm
  have hchild : ∀ k ∈ m.children, k.isEmptyStatement = false := by
    intro k hk
    cases k with
    | foreign loc kind => exact absurd (Subtree.under hk (.root _) |>.trans hm) (h loc kind)
    | _ => rfl
  cases m with
  | program loc body => exact hchild
  | block loc body => exact hchild
  | foreign loc kind => exact absurd hm (h loc kind)
  | _ => trivial

end Node

end Sil
