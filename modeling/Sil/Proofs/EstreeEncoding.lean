import Mathlib
import Sil.Proofs.Subtree
import Sil.Syntax.Estree

/-!
ESTree JSON as a form of syntax trees. A node is an object with the name of its kind, its span and a
field for each of its parts; the order of the fields and further ones do not matter. Main statement:
reading such an object gives the node back, whichever way its spans and its missing parts are
written, unless a path of the tree is too long.
-/
namespace Sil

namespace Text

theorem toChars?_map_ofChar (cs : List Char) : toChars? (cs.map CodePoint.ofChar) = some cs := by
  induction cs with
  | nil => rfl
  | cons c rest ih =>
    have hpoint : (CodePoint.ofChar c).val = c.toNat := rfl
    have hplain : (CodePoint.ofChar c).isSurrogate = false := by
      have hvalid := c.valid
      simp only [UInt32.isValidChar, Nat.isValidChar] at hvalid
      have hval : c.val.toNat = c.toNat := rfl
      simp only [CodePoint.isSurrogate, hpoint, Bool.and_eq_false_imp, decide_eq_true_eq,
        decide_eq_false_iff_not]
      omega
    simp [toChars?, ih, hplain, hpoint]

@[simp] theorem toString?_ofString (s : String) : (ofString s).toString? = some s := by
  simp [toString?, ofString, toChars?_map_ofChar]

theorem ofString_injective : Function.Injective ofString := by
  intro s t h
  have hsome := congrArg toString? h
  simpa using hsome

end Text

@[simp] theorem Json.asString_ofString (s : String) : (Json.ofString s).asString = .ok s := by
  simp [Json.ofString, Json.asString]

/-- What a field of an object holds: one part, one that may be left out, several, or no parts but a
text or a value. An absent field must not be there. -/
inductive Slot (α : Type) where
  | child (part : α)
  | optional (part : Option α)
  | list (parts : List α)
  | text (s : String)
  | value (v : Json)
  | absent

namespace Estree

/-- A field holds what a slot asks for; each part of the slot is paired with the value that stands
for it. -/
def Holds {α : Type} (field : Option Json) : Slot α → List (α × Json) → Prop
  | .child a, parts => ∃ j, field = some j ∧ parts = [(a, j)]
  | .optional none, parts => (field = none ∨ field = some .null) ∧ parts = []
  | .optional (some a), parts => ∃ j, field = some j ∧ parts = [(a, j)]
  | .list as, parts => parts.map Prod.fst = as ∧ field = some (.arr (parts.map Prod.snd))
  | .text s, parts => field = some (.ofString s) ∧ parts = []
  | .value v, parts => field = some v ∧ parts = []
  | .absent, parts => field = none ∧ parts = []

/-- An object has a field for each of some slots. -/
def Filled {α : Type} (fields : Fields) : List (String × Slot α) → List (α × Json) → Prop
  | [], parts => parts = []
  | (key, slot) :: rest, parts => ∃ first others, parts = first ++ others ∧
      Holds (field? fields key) slot first ∧ Filled fields rest others

theorem Filled.holds {α : Type} {fields : Fields} {slots : List (String × Slot α)}
    {parts : List (α × Json)} (h : Filled fields slots parts) :
    ∀ p ∈ slots, ∃ held, Holds (field? fields p.1) p.2 held := by
  induction slots generalizing parts with
  | nil => simp
  | cons p rest ih =>
    obtain ⟨first, others, -, hfirst, hothers⟩ := h
    exact List.forall_mem_cons.mpr ⟨⟨first, hfirst⟩, ih hothers⟩

/-- The span of a node as the field that holds it: two ends, or four numbers. -/
inductive Spans : Option Location → Option Json → Prop
  | omitted : Spans none none
  | null : Spans none (some .null)
  | ends {l : Location} {loc start stop : Fields} (hstart : field? loc "start" = some (.obj start))
      (hstop : field? loc "end" = some (.obj stop))
      (startLine : field? start "line" = some (.int l.startLine))
      (startColumn : field? start "column" = some (.int l.startColumn))
      (endLine : field? stop "line" = some (.int l.endLine))
      (endColumn : field? stop "column" = some (.int l.endColumn)) :
      Spans (some l) (some (.obj loc))
  | numbers {l : Location} {loc : Fields} (hstart : field? loc "start" = none)
      (startLine : field? loc "start_line" = some (.int l.startLine))
      (startColumn : field? loc "start_col" = some (.int l.startColumn))
      (endLine : field? loc "end_line" = some (.int l.endLine))
      (endColumn : field? loc "end_col" = some (.int l.endColumn)) :
      Spans (some l) (some (.obj loc))

theorem span_of_spans {fields : Fields} {loc : Option Location}
    (h : Spans loc (field? fields "loc")) : span fields = .ok (.valid loc) := by
  generalize hfield : field? fields "loc" = field at h
  cases h with
  | omitted => simp [span, hfield]
  | null => simp [span, hfield]
  | ends hstart hstop startLine startColumn endLine endColumn =>
    simp [span, hfield, hstart, hstop, spanOfEnds, member, startLine, startColumn, endLine,
      endColumn, Json.asInteger, Checked.ofExcept, Checked.map, bind, Except.bind, pure,
      Except.pure]
  | numbers hstart startLine startColumn endLine endColumn =>
    unfold field? at startLine startColumn endLine endColumn
    simp [span, hfield, hstart, Location.ofFields, Json.required, startLine, startColumn, endLine,
      endColumn, Json.asInteger, Checked.ofExcept, Checked.map, bind, Except.bind, pure,
      Except.pure]

/-- An object with this kind is read as a node of a foreign kind. -/
def NamesForeign (fields : Fields) (kind : String) : Prop :=
  kind ∉ Node.supportedKinds ∨
    kind = "Literal" ∧ ((field? fields "regex").isSome ∨ (field? fields "bigint").isSome)

theorem kind?_of_foreign {fields : Fields} {kind : String}
    (htype : field? fields "type" = some (.ofString kind)) (h : NamesForeign fields kind) :
    kind? (.obj fields) = .ok none := by
  rcases h with h | ⟨rfl, h⟩
  · simp [kind?, htype, Json.ofString, h]
  · simp [kind?, htype, Json.ofString, h]

end Estree

namespace Node

/-- The fields of a node besides its kind and its span. A literal has no marks of a foreign one. -/
def slots : Node → List (String × Slot Node)
  | .program _ body => [("body", .list body)]
  | .declaration _ kind declarators => [("kind", .text kind), ("declarations", .list declarators)]
  | .declarator _ id init => [("id", .child id), ("init", .optional init)]
  | .literal _ value raw =>
    [("value", .value value), ("raw", .text raw), ("regex", .absent), ("bigint", .absent)]
  | .identifier _ name => [("name", .text name)]
  | .binary _ operator left right =>
    [("operator", .text operator), ("left", .child left), ("right", .child right)]
  | .logical _ operator left right =>
    [("operator", .text operator), ("left", .child left), ("right", .child right)]
  | .assignment _ operator left right =>
    [("operator", .text operator), ("left", .child left), ("right", .child right)]
  | .expression _ inner => [("expression", .child inner)]
  | .block _ body => [("body", .list body)]
  | .conditional _ test consequent alternate =>
    [("test", .child test), ("consequent", .child consequent), ("alternate", .optional alternate)]
  | .whileLoop _ test body => [("test", .child test), ("body", .child body)]
  | .forLoop _ init test update body =>
    [("init", .optional init), ("test", .optional test), ("update", .optional update),
      ("body", .child body)]
  | .function _ id params body =>
    [("id", .child id), ("params", .list params), ("body", .child body)]
  | .ret _ argument => [("argument", .optional argument)]
  | .foreign .. => []

open Estree in
/-- A JSON value is the ESTree form of a node. A node of a foreign kind keeps its kind and its span
only, and its kind must not be that of another node. -/
inductive Encodes : Node → Json → Prop
  | intro {n : Node} {fields : Fields} {parts : List (Node × Json)}
      (type : field? fields "type" = some (.ofString n.kind))
      (span : Spans n.loc (field? fields "loc"))
      (foreign : ∀ loc kind, n = .foreign loc kind → NamesForeign fields kind)
      (slots : Filled fields n.slots parts) (encoded : ∀ p ∈ parts, Encodes p.1 p.2) :
      Encodes n (.obj fields)

mutual

def height : Node → Nat
  | .program _ body => heightAll body + 1
  | .declaration _ _ declarators => heightAll declarators + 1
  | .declarator _ id init => max id.height (heightSome init) + 1
  | .literal .. => 1
  | .identifier .. => 1
  | .binary _ _ left right => max left.height right.height + 1
  | .logical _ _ left right => max left.height right.height + 1
  | .assignment _ _ left right => max left.height right.height + 1
  | .expression _ inner => inner.height + 1
  | .block _ body => heightAll body + 1
  | .conditional _ test consequent alternate =>
    max (max test.height consequent.height) (heightSome alternate) + 1
  | .whileLoop _ test body => max test.height body.height + 1
  | .forLoop _ init test update body =>
    max (max (max (heightSome init) (heightSome test)) (heightSome update)) body.height + 1
  | .function _ id params body => max (max id.height (heightAll params)) body.height + 1
  | .ret _ argument => heightSome argument + 1
  | .foreign .. => 1

def heightAll : List Node → Nat
  | [] => 0
  | n :: rest => max n.height (heightAll rest)

def heightSome : Option Node → Nat
  | none => 0
  | some n => n.height

end

end Node

namespace Checked

/-- The outcome for a tree that is right in all but its height. -/
def fitting {α : Type} (fits : Bool) (a : α) : Checked α :=
  if fits then .valid a else .invalid (.notRecord "OpaqueNode") true

variable {α β : Type} {p q : Bool} {f : α → β} {a : α}

@[simp] theorem fitting_true : fitting true a = .valid a := rfl

@[simp] theorem map_valid : f <$> Checked.valid a = .valid (f a) := rfl

@[simp] theorem map_fitting : (fitting p a).map f = fitting p (f a) := by cases p <;> rfl

@[simp] theorem functor_fitting : f <$> fitting p a = fitting p (f a) := by cases p <;> rfl

@[simp] theorem valid_seq_valid : Checked.valid f <*> .valid a = .valid (f a) := rfl

@[simp] theorem valid_seq_fitting : Checked.valid f <*> fitting p a = fitting p (f a) := by
  cases p <;> rfl

@[simp] theorem fitting_seq_fitting : fitting p f <*> fitting q a = fitting (p && q) (f a) := by
  cases p <;> cases q <;> rfl

end Checked

namespace Node

theorem Encodes.ne_null {n : Node} {j : Json} (h : n.Encodes j) : j ≠ .null := by
  cases h with
  | intro => simp

theorem height_pos (n : Node) : 0 < n.height := by
  cases n <;> simp [height]

end Node

namespace Estree

variable {read : Json → Except Fault (Checked Node)} {fields : Fields} {key : String}
  {parts : List (Node × Json)} {room : Nat}

def ReadsBack (read : Json → Except Fault (Checked Node)) (room : Nat)
    (parts : List (Node × Json)) : Prop :=
  ∀ p ∈ parts, p.2 ≠ .null ∧ read p.2 = .ok (.fitting (p.1.height ≤ room) p.1)

def ReadsSlot (read : Json → Except Fault (Checked Node)) (room : Nat) (fields : Fields)
    (key : String) : Slot Node → Prop
  | .child n => child read fields key = .ok (.fitting (n.height ≤ room) n)
  | .optional n => child? read fields key = .ok (.fitting (Node.heightSome n ≤ room) n)
  | .list ns => nodes read fields key = .ok (.fitting (Node.heightAll ns ≤ room) ns)
  | .text s => ∀ default, text fields key default = .valid s
  | .value v => field? fields key = some v
  | .absent => field? fields key = none

theorem all_of_readsBack (hread : ReadsBack read room parts) :
    all read (parts.map Prod.snd) =
      .ok (.fitting (Node.heightAll (parts.map Prod.fst) ≤ room) (parts.map Prod.fst)) := by
  induction parts with
  | nil => rfl
  | cons p rest ih =>
    have hfirst := (hread p List.mem_cons_self).2
    have hrest := ih fun q hq => hread q (List.mem_cons_of_mem p hq)
    simp [all, hfirst, hrest, Node.heightAll, bind, Except.bind, pure, Except.pure]

theorem readsSlot_of_holds {slot : Slot Node} (h : Holds (field? fields key) slot parts)
    (hread : ReadsBack read room parts) : ReadsSlot read room fields key slot := by
  cases slot with
  | child n =>
    obtain ⟨j, hfield, rfl⟩ := h
    show child read fields key = _
    rw [child, hfield]
    exact (hread (n, j) (List.mem_singleton_self _)).2
  | optional n =>
    show child? read fields key = _
    cases n with
    | none =>
      obtain ⟨hfield | hfield, -⟩ := h
      · simp [child?, hfield, Checked.fitting, Node.heightSome]
      · simp [child?, hfield, Checked.fitting, Node.heightSome]
    | some n =>
      obtain ⟨j, hfield, rfl⟩ := h
      obtain ⟨hnull, hj⟩ := hread (n, j) (List.mem_singleton_self _)
      have hpresent : child? read fields key = do return (← read j).map some := by
        simp [child?, hfield]
      rw [hpresent, hj]
      show Except.ok ((Checked.fitting (n.height ≤ room) n).map some) = _
      rw [Checked.map_fitting]
      rfl
  | list ns =>
    obtain ⟨rfl, hfield⟩ := h
    show nodes read fields key = _
    rw [nodes, hfield]
    exact all_of_readsBack hread
  | text s =>
    intro default
    simp [text, h.1, Checked.ofExcept]
  | value v => exact h.1
  | absent => exact h.1

theorem readsSlot_of_filled {slots : List (String × Slot Node)} (h : Filled fields slots parts)
    (hread : ReadsBack read room parts) : ∀ p ∈ slots, ReadsSlot read room fields p.1 p.2 := by
  induction slots generalizing parts with
  | nil => simp
  | cons p rest ih =>
    obtain ⟨first, others, rfl, hfirst, hothers⟩ := h
    rw [List.forall_mem_cons]
    exact ⟨readsSlot_of_holds hfirst fun q hq => hread q (List.mem_append_left _ hq),
      ih hothers fun q hq => hread q (List.mem_append_right _ hq)⟩

/-- A node of a supported kind is read from its fields. -/
theorem supported_of_slots {n : Node} (hspan : Spans n.loc (field? fields "loc"))
    (hn : ∀ loc kind, n ≠ .foreign loc kind)
    (hslots : ∀ p ∈ n.slots, ReadsSlot read room fields p.1 p.2) :
    supported read n.kind fields = .ok (.fitting (n.height ≤ room + 1) n) := by
  have hloc := span_of_spans hspan
  cases n with
  | foreign loc kind => exact absurd rfl (hn loc kind)
  | _ =>
    simp only [Node.slots, List.forall_mem_cons, ReadsSlot, List.not_mem_nil, false_implies,
      implies_true, and_true] at hslots
    simp [Node.kind, supported, hloc, hslots, Node.loc, Node.height, Bool.and_assoc, bind,
      Except.bind, pure, Except.pure]

theorem kind?_of_supported {kind : String} (htype : field? fields "type" = some (.ofString kind))
    (hkind : kind ∈ Node.supportedKinds)
    (hliteral : kind = "Literal" → field? fields "regex" = none ∧ field? fields "bigint" = none) :
    kind? (.obj fields) = .ok (some kind) := by
  by_cases h : kind = "Literal"
  · obtain ⟨hregex, hbigint⟩ := hliteral h
    simp [kind?, htype, Json.ofString, hkind, hregex, hbigint]
  · simp [kind?, htype, Json.ofString, hkind, h]

end Estree

namespace Node

theorem kind_mem_supportedKinds {n : Node} (h : ∀ loc kind, n ≠ .foreign loc kind) :
    n.kind ∈ supportedKinds := by
  cases n with
  | foreign loc kind => exact absurd rfl (h loc kind)
  | _ => simp [kind, supportedKinds]

open Estree in
/-- The kind of a node is found again in its ESTree form. -/
theorem kind?_of_slots {n : Node} {fields : Fields} {parts : List (Node × Json)}
    (type : field? fields "type" = some (.ofString n.kind)) (h : ∀ loc kind, n ≠ .foreign loc kind)
    (slots : Filled fields n.slots parts) : kind? (.obj fields) = .ok (some n.kind) := by
  refine kind?_of_supported type (kind_mem_supportedKinds h) fun hliteral => ?_
  cases n with
  | literal loc value raw =>
    obtain ⟨_, hregex, -⟩ := slots.holds ("regex", .absent) (by simp [Node.slots])
    obtain ⟨_, hbigint, -⟩ := slots.holds ("bigint", .absent) (by simp [Node.slots])
    exact ⟨hregex, hbigint⟩
  | foreign loc kind => exact absurd rfl (h loc kind)
  | _ => exact absurd hliteral (by simp [kind])

open Estree in
/-- The ESTree form of a node is read as the node, if there is room for its longest path. -/
theorem Encodes.node_eq {n : Node} {j : Json} (h : n.Encodes j) (room : Nat) :
    Estree.node room j = .ok (.fitting (n.height ≤ room) n) := by
  induction h generalizing room with
  | @intro n fields parts type span foreign slots encoded ih =>
    have hspan := span_of_spans span
    -- A foreign node is read without its fields, whatever they hold.
    by_cases hn : ∃ loc kind, n = .foreign loc kind
    · obtain ⟨loc, kind, rfl⟩ := hn
      have hkind := kind?_of_foreign type (foreign loc kind rfl)
      have htext : text fields "type" none = .valid kind := by
        simp [text, type, Node.kind, Checked.ofExcept]
      cases room with
      | zero =>
        simp [Estree.node, hkind, height, Checked.fitting, bind, Except.bind, pure, Except.pure]
      | succ room =>
        simp [Estree.node, hkind, Estree.foreign, hspan, htext, height, Node.loc, bind, Except.bind,
          pure, Except.pure]
    · push Not at hn
      have hkind := kind?_of_slots type hn slots
      cases room with
      | zero =>
        have hheight : ¬ n.height ≤ 0 := Nat.not_le.mpr n.height_pos
        simp [Estree.node, hkind, hheight, Checked.fitting, bind, Except.bind, pure, Except.pure]
      | succ room =>
        have hread : ReadsBack (Estree.node room) room parts :=
          fun p hp => ⟨(encoded p hp).ne_null, ih p hp room⟩
        have hsupported := supported_of_slots span hn (readsSlot_of_filled slots hread)
        simp only [Estree.node, hkind, bind, Except.bind]
        exact hsupported

theorem Encodes.ofEstree_eq {n : Node} {j : Json} (h : n.Encodes j) :
    Node.ofEstree j =
      if n.height ≤ Estree.pathLimit then .ok n else .error (.tooDeep .validation) := by
  rw [Node.ofEstree, h.node_eq]
  by_cases hheight : n.height ≤ Estree.pathLimit
  · simp [hheight]
  · simp [hheight, Checked.fitting]

end Node

def Slot.parts {α : Type} : Slot α → List α
  | .child a => [a]
  | .optional a => a.toList
  | .list as => as
  | _ => []

namespace Estree

/-- How a tree is written: whether a missing part is null or left out, and whether a span is given
by two ends or by four numbers. -/
structure Style where
  nulls : Bool
  ends : Bool

namespace Style

variable {α : Type} (style : Style) (write : α → Json)

def value? : Slot α → Option Json
  | .child a => some (write a)
  | .optional none => if style.nulls then some .null else none
  | .optional (some a) => some (write a)
  | .list as => some (.arr (as.map write))
  | .text s => some (.ofString s)
  | .value v => some v
  | .absent => none

def fields : List (String × Slot α) → Fields
  | [] => []
  | (key, slot) :: rest =>
    ((style.value? write slot).toList.map fun j => (Text.ofString key, j)) ++ fields rest

def span : Option Location → Option Json
  | none => if style.nulls then some .null else none
  | some l =>
    if style.ends then
      some (.object
        [("start", .object [("line", .int l.startLine), ("column", .int l.startColumn)]),
          ("end", .object [("line", .int l.endLine), ("column", .int l.endColumn)])])
    else
      some (.object [("start_line", .int l.startLine), ("start_col", .int l.startColumn),
        ("end_line", .int l.endLine), ("end_col", .int l.endColumn)])

def spanSlot (loc : Option Location) : Slot α :=
  match style.span loc with
  | some j => .value j
  | none => .absent

variable {style write} {slots : List (String × Slot α)} {key : String}

theorem field?_cons_self {slot : Slot α} {j : Json} (h : style.value? write slot = some j) :
    field? (style.fields write ((key, slot) :: slots)) key = some j := by
  simp [fields, h, field?, Json.lookup]

theorem field?_cons_skip {p : String × Slot α} (h : p.1 ≠ key ∨ style.value? write p.2 = none) :
    field? (style.fields write (p :: slots)) key = field? (style.fields write slots) key := by
  cases hvalue : style.value? write p.2 with
  | none => simp [fields, hvalue]
  | some j =>
    have hkey : p.1 ≠ key := by simpa [hvalue] using h
    have hne : Text.ofString p.1 ≠ Text.ofString key := Text.ofString_injective.ne hkey
    simp [fields, hvalue, field?, Json.lookup, hne]

theorem field?_fields_of_not_mem (h : key ∉ slots.map Prod.fst) :
    field? (style.fields write slots) key = none := by
  induction slots with
  | nil => rfl
  | cons p rest ih =>
    rw [List.map_cons, List.mem_cons, not_or] at h
    rw [field?_cons_skip (.inl (Ne.symm h.1)), ih h.2]

/-- A field is written as its slot says, where no key stands twice. -/
theorem field?_fields (hkeys : (slots.map Prod.fst).Nodup) {p : String × Slot α} (h : p ∈ slots) :
    field? (style.fields write slots) p.1 = style.value? write p.2 := by
  induction slots with
  | nil => cases h
  | cons q rest ih =>
    rw [List.map_cons, List.nodup_cons] at hkeys
    rcases List.mem_cons.mp h with rfl | h
    · cases hvalue : style.value? write p.2 with
      | none => rw [field?_cons_skip (.inr hvalue), field?_fields_of_not_mem hkeys.1]
      | some j => exact field?_cons_self hvalue
    · have hne : q.1 ≠ p.1 := by
        rintro heq
        exact hkeys.1 (heq ▸ List.mem_map_of_mem h)
      rw [field?_cons_skip (.inl hne), ih hkeys.2 h]

theorem holds_value? (slot : Slot α) :
    Holds (style.value? write slot) slot (slot.parts.map fun a => (a, write a)) := by
  cases slot with
  | optional a =>
    cases a with
    | none =>
      show _ ∧ _
      cases hnulls : style.nulls <;> simp [value?, hnulls, Slot.parts]
    | some a => exact ⟨write a, rfl, rfl⟩
  | _ => simp [Holds, value?, Slot.parts, Function.comp_def]

/-- An object that has the fields of some slots among others fills these slots. -/
theorem filled_of_field? {all : Fields}
    (h : ∀ p ∈ slots, field? all p.1 = style.value? write p.2) :
    Filled all slots ((slots.flatMap fun p => p.2.parts).map fun a => (a, write a)) := by
  induction slots with
  | nil => rfl
  | cons p rest ih =>
    rw [List.forall_mem_cons] at h
    have hfirst := h.1 ▸ holds_value? p.2
    exact ⟨_, _, by rw [List.flatMap_cons, List.map_append], hfirst, ih h.2⟩

theorem spans_span (loc : Option Location) : Spans loc (style.span loc) := by
  cases loc with
  | none =>
    cases hnulls : style.nulls
    · rw [span, hnulls]
      exact .omitted
    · rw [span, hnulls]
      exact .null
  | some l =>
    cases hends : style.ends
    · rw [span, hends]
      exact .numbers rfl rfl rfl rfl rfl
    · rw [span, hends]
      exact .ends rfl rfl rfl rfl rfl rfl

theorem value?_spanSlot (loc : Option Location) :
    style.value? write (style.spanSlot loc) = style.span loc := by
  cases h : style.span loc <;> simp [spanSlot, h, value?]

end Style
end Estree

namespace Node
open Estree

/-- The field that tells a foreign node with the kind of a literal from a literal. -/
def mark : Node → List (String × Slot Node)
  | .foreign _ kind => if kind = "Literal" then [("bigint", .value .null)] else []
  | _ => []

def entries (style : Style) (n : Node) : List (String × Slot Node) :=
  ("type", .text n.kind) :: ("loc", style.spanSlot n.loc) :: (n.mark ++ n.slots)

def toEstreeWithin (style : Style) : Nat → Node → Json
  | 0, _ => .null
  | height + 1, n => .obj (style.fields (toEstreeWithin style height) (n.entries style))

def toEstree (style : Style) (n : Node) : Json := toEstreeWithin style n.height n

theorem entries_nodup (style : Style) (n : Node) : ((n.entries style).map Prod.fst).Nodup := by
  cases n with
  | foreign loc kind =>
    by_cases h : kind = "Literal"
    · simp [entries, mark, slots, h]
    · simp [entries, mark, slots, h]
  | _ => simp [entries, mark, slots]

theorem height_le_heightAll {n : Node} {ns : List Node} (h : n ∈ ns) : n.height ≤ heightAll ns := by
  induction ns with
  | nil => cases h
  | cons m rest ih =>
    rw [heightAll]
    rcases List.mem_cons.mp h with rfl | h
    · exact le_max_left _ _
    · exact (ih h).trans (le_max_right _ _)

@[simp] theorem heightAll_append (ms ns : List Node) :
    heightAll (ms ++ ns) = max (heightAll ms) (heightAll ns) := by
  induction ms with
  | nil => simp [heightAll]
  | cons m rest ih => rw [List.cons_append, heightAll, heightAll, ih, max_assoc]

@[simp] theorem heightAll_toList (n : Option Node) : heightAll n.toList = heightSome n := by
  cases n <;> simp [heightAll, heightSome]

/-- The height of a node counts it and the highest of its children. -/
theorem height_eq (n : Node) : n.height = heightAll n.children + 1 := by
  cases n <;> simp [children, height, heightAll, max_assoc]

/-- The parts in the slots of a node are its children. -/
theorem parts_slots (n : Node) : (n.slots.flatMap fun p => p.2.parts) = n.children := by
  cases n <;> simp [slots, Slot.parts, children]

/-- Each node of a foreign kind can be told from the other nodes in ESTree form. -/
def Distinguishable (t : Node) : Prop :=
  ∀ m, Subtree m t → ∀ loc kind, m = .foreign loc kind → kind ∉ supportedKinds ∨ kind = "Literal"

theorem encodes_toEstreeWithin {style : Style} {room : Nat} {n : Node} (hn : Distinguishable n)
    (h : n.height ≤ room) : n.Encodes (toEstreeWithin style room n) := by
  induction room generalizing n with
  | zero => exact absurd n.height_pos (Nat.not_lt.mpr h)
  | succ room ih =>
    have hfield : ∀ p ∈ n.entries style,
        field? (style.fields (toEstreeWithin style room) (n.entries style)) p.1 =
          style.value? (toEstreeWithin style room) p.2 :=
      fun p hp => Style.field?_fields (entries_nodup style n) hp
    have hloc := hfield ("loc", style.spanSlot n.loc) (by simp [entries])
    rw [Style.value?_spanSlot] at hloc
    have hslots := Style.filled_of_field? fun p (hp : p ∈ n.slots) =>
      hfield p (List.mem_cons_of_mem _ (List.mem_cons_of_mem _ (List.mem_append_right _ hp)))
    refine .intro (hfield ("type", .text n.kind) List.mem_cons_self) (hloc ▸ Style.spans_span n.loc)
      ?_ hslots ?_
    · rintro loc kind rfl
      rcases hn _ (.root _) loc kind rfl with hkind | rfl
      · exact .inl hkind
      · have hmark := hfield ("bigint", .value .null) (by simp [entries, mark])
        exact .inr ⟨rfl, .inr (by rw [hmark]; rfl)⟩
    · intro p hp
      obtain ⟨m, hm, rfl⟩ := List.mem_map.mp hp
      rw [parts_slots] at hm
      have hle := height_le_heightAll hm
      refine ih (fun k hk => hn k (hk.trans (.child hm))) ?_
      show m.height ≤ room
      rw [height_eq] at h
      omega

/-- A tree has an ESTree form in every style. -/
theorem encodes_toEstree (style : Style) {t : Node} (ht : Distinguishable t) :
    t.Encodes (t.toEstree style) :=
  encodes_toEstreeWithin ht le_rfl

end Node

/-- Reading undoes the ESTree form of a tree: every form of it is read as the tree itself, spans
included, if no path has more than 254 nodes, and refused as too deep otherwise. There is a form in
every style. -/
theorem ofEstree_undoes_encoding (t : Node) (ht : t.Distinguishable) :
    (∀ style, t.Encodes (t.toEstree style)) ∧
      ∀ j, t.Encodes j →
        Node.ofEstree j =
          if t.height ≤ Estree.pathLimit then .ok t else .error (.tooDeep .validation) :=
  ⟨fun style => Node.encodes_toEstree style ht, fun _ hj => hj.ofEstree_eq⟩

/-- A loop with one clause over a regular expression and an object as a literal. -/
def mixedTree : Node :=
  .program (some ⟨1, 0, 2, 5⟩)
    [.forLoop none none (some (.foreign (some ⟨1, 4, 1, 9⟩) "Literal")) none
      (.expression none (.literal (some ⟨2, 0, 2, 4⟩) (.object [("deep", .arr [.null])]) "obj"))]

/-- Its ESTree form with both forms of spans, and with missing parts that are null and left out. -/
def mixedJson : Json :=
  .object [("loc", .object [("end", .object [("line", .int 2), ("column", .int 5)]),
      ("start", .object [("line", .int 1), ("column", .int 0)])]),
    ("body", .arr [.object [("type", .ofString "ForStatement"), ("loc", .null), ("init", .null),
      ("test", .object [("type", .ofString "Literal"), ("regex", .object []),
        ("loc", .object [("start_line", .int 1), ("start_col", .int 4), ("end_line", .int 1),
          ("end_col", .int 9)])]),
      ("body", .object [("type", .ofString "ExpressionStatement"),
        ("expression", .object [("value", .object [("deep", .arr [.null])]),
          ("raw", .ofString "obj"), ("type", .ofString "Literal"),
          ("loc", .object [("start", .object [("line", .int 2), ("column", .int 0)]),
            ("end", .object [("line", .int 2), ("column", .int 4)])])])])]]),
    ("type", .ofString "Program"), ("sourceType", .ofString "script")]

theorem encodes_mixedJson : mixedTree.Encodes mixedJson := by
  refine .intro rfl (.ends rfl rfl rfl rfl rfl rfl) (by simp [mixedTree])
    ⟨[(_, _)], _, rfl, ⟨rfl, rfl⟩, rfl⟩ ?_
  rw [List.append_nil, List.forall_mem_singleton]
  refine .intro rfl .null (by simp)
    ⟨[], _, rfl, ⟨.inr rfl, rfl⟩, [(_, _)], _, rfl, ⟨_, rfl, rfl⟩, [], _, rfl, ⟨.inl rfl, rfl⟩,
      [(_, _)], _, rfl, ⟨_, rfl, rfl⟩, rfl⟩ ?_
  rw [List.nil_append, List.append_nil, List.nil_append, List.singleton_append,
    List.forall_mem_cons, List.forall_mem_singleton]
  constructor
  · refine .intro rfl (.numbers rfl rfl rfl rfl rfl) (fun loc kind h => ?_) rfl (by simp)
    cases h
    exact .inr ⟨rfl, .inl rfl⟩
  · refine .intro rfl .omitted (by simp) ⟨[(_, _)], _, rfl, ⟨_, rfl, rfl⟩, rfl⟩ ?_
    rw [List.append_nil, List.forall_mem_singleton]
    exact .intro rfl (.ends rfl rfl rfl rfl rfl rfl) (by simp)
      ⟨[], _, rfl, ⟨rfl, rfl⟩, [], _, rfl, ⟨rfl, rfl⟩, [], _, rfl, ⟨rfl, rfl⟩, [], _, rfl,
        ⟨rfl, rfl⟩, rfl⟩
      (by simp)

open Node in
theorem distinguishable_mixedTree : mixedTree.Distinguishable := by
  simp only [Distinguishable, mixedTree, forall_subtree (n := .program _ _),
    forall_subtree (n := .forLoop _ _ _ _ _), forall_subtree (n := .foreign _ _),
    forall_subtree (n := .expression _ _), forall_subtree (n := .literal _ _ _), children,
    Option.toList_none, Option.toList_some, List.cons_append, List.nil_append, List.forall_mem_cons]
  simp

/-- The forms of a missing part and of a span may stand side by side. -/
theorem ofEstree_undoes_mixedJson :
    mixedTree.Distinguishable ∧ mixedTree.Encodes mixedJson ∧
      Node.ofEstree mixedJson = .ok mixedTree :=
  ⟨distinguishable_mixedTree, encodes_mixedJson,
    (ofEstree_undoes_encoding mixedTree distinguishable_mixedTree).2 mixedJson encodes_mixedJson⟩

end Sil
