import Mathlib
import Sil.Proofs.ReadingFaults

/-!
Comments and parentheses do not change the syntax tree of a concrete tree. Children are found by
their field, by their kind or by their order, and none of these ways sees a comment or minds a pair
of parentheses around an expression. Main statement: with comments and parentheses added in any
number of places, the same tree is built with the same spans, or the tree has become too deep.
-/
namespace Sil

namespace ConcreteTree

def withField (t : ConcreteTree) (field : Option String) : ConcreteTree :=
  .node t.kind t.extent t.named field t.standing t.children

theorem hasError_withField (t : ConcreteTree) (field : Option String) :
    (t.withField field).hasError = t.hasError := by
  cases t
  rfl

mutual

def height : ConcreteTree → Nat
  | .node _ _ _ _ _ children => heightAll children + 1

def heightAll : List ConcreteTree → Nat
  | [] => 0
  | t :: rest => max t.height (heightAll rest)

end

theorem height_lt_of_mem {t c : ConcreteTree} (h : c ∈ t.children) : c.height < t.height := by
  obtain ⟨kind, extent, named, field, standing, children⟩ := t
  have hall : c.height ≤ heightAll children := by
    change c ∈ children at h
    induction children with
    | nil => cases h
    | cons d rest ih =>
      rw [heightAll]
      rcases List.mem_cons.mp h with rfl | h
      · exact le_max_left _ _
      · exact (ih h).trans (le_max_right _ _)
  rw [height]
  exact Nat.lt_succ_of_le hall

end ConcreteTree

namespace Concrete
open ConcreteTree

theorem mem_of_inField? {t c : ConcreteTree} {name : String} (h : t.inField? name = some c) :
    c ∈ t.children :=
  List.mem_of_find?_eq_some h

theorem field_of_inField? {t c : ConcreteTree} {name : String} (h : t.inField? name = some c) :
    c.field = some name := by
  simpa using List.find?_some h

theorem exists_inField? {t : ConcreteTree} {name : String}
    (h : ∃ c ∈ t.children, c.field = some name) :
    ∃ c, t.inField? name = some c := by
  obtain ⟨c, hc, hfield⟩ := h
  rw [← Option.isSome_iff_exists, inField?, List.find?_isSome]
  exact ⟨c, hc, by simp [hfield]⟩

/-- The kinds by which children are picked out. No expression has one of them. -/
def pickedKinds : List String :=
  ["comment", "hash_bang_line", "empty_statement", ";", "expression_statement", "else_clause",
    "variable_declarator", "formal_parameters"]

/-- The fields and tokens that the grammar promises: an operation has its operator in a field,
operators are tokens, a declaration begins with a token, and the parameters of a function have their
own node. -/
inductive Shaped : ConcreteTree → Prop
  | intro {t : ConcreteTree}
      (operator : t.kind = "binary_expression" → ∃ c ∈ t.children, c.field = some "operator")
      (token : ∀ c ∈ t.children, c.field = some "operator" → c.named = false)
      (keyword : t.kind = "lexical_declaration" ∨ t.kind = "variable_declaration" →
        ∀ c, t.children.head? = some c → c.named = false)
      (formals : t.kind = "function_declaration" →
        ∀ c ∈ t.children, c.field = some "parameters" → c.kind = "formal_parameters")
      (children : ∀ c ∈ t.children, Shaped c) : Shaped t

structure IsRemark (c : ConcreteTree) : Prop where
  comment : c.isComment = true
  field : c.field = none
  clean : c.hasError = false

/-- A token or a comment, as they stand beside the expression in a pair of parentheses. -/
structure IsBeside (c : ConcreteTree) : Prop where
  minor : c.named = false ∨ c.isComment = true
  clean : c.hasError = false

/-- A list with comments added anywhere and its own members replaced by related ones. -/
inductive Interspersed (R : ConcreteTree → ConcreteTree → Prop) :
    List ConcreteTree → List ConcreteTree → Prop
  | nil : Interspersed R [] []
  | keep {t t' : ConcreteTree} {ts ts' : List ConcreteTree} (h : R t t')
      (rest : Interspersed R ts ts') :
      Interspersed R (t :: ts) (t' :: ts')
  | remark {c : ConcreteTree} {ts ts' : List ConcreteTree} (h : IsRemark c)
      (rest : Interspersed R ts ts') : Interspersed R ts (c :: ts')

/-- A concrete tree with comments and parentheses added in any number of places. A declaration still
begins with its keyword, and the parts of a string stay as they are. -/
inductive Dressed : ConcreteTree → ConcreteTree → Prop
  -- The relation between the children is `Dressed` itself; left free, it does not make the type a
  -- nested one.
  | node {kind : String} {extent : Extent} {named : Bool} {field : Option String}
      {standing : Standing}
      {children children' : List ConcreteTree} {R : ConcreteTree → ConcreteTree → Prop}
      (hR : ∀ c c', R c c' → Dressed c c') (h : Interspersed R children children')
      (keyword : kind = "lexical_declaration" ∨ kind = "variable_declaration" →
        ∀ c, children'.head? = some c → c.isComment = false)
      (string : kind = "string" → children' = children) :
      Dressed (.node kind extent named field standing children)
        (.node kind extent named field standing children')
  | paren {t inner : ConcreteTree} {extent : Extent} {field : Option String}
      {opening closing : List ConcreteTree} (h : Dressed t inner) (named : t.named = true)
      (kind : t.kind ∉ pickedKinds) (hopening : ∀ c ∈ opening, IsBeside c)
      (hclosing : ∀ c ∈ closing, IsBeside c) :
      Dressed t (.node "parenthesized_expression" extent true t.field {}
        (opening ++ inner.withField field :: closing))

/-- Two outcomes of building are the same, unless the second is that the tree is too deep. -/
def SameUnlessDeep {α : Type} (x y : Except Error α) : Prop :=
  y = .error (.tooDeep .construction) ∨ x = y

namespace SameUnlessDeep
variable {α β γ : Type}

theorem refl (x : Except Error α) : SameUnlessDeep x x := .inr rfl

theorem bind {x y : Except Error α} {f g : α → Except Error β} (h : SameUnlessDeep x y)
    (hf : ∀ a, SameUnlessDeep (f a) (g a)) : SameUnlessDeep (x >>= f) (y >>= g) := by
  rcases h with rfl | rfl
  · exact .inl rfl
  · cases x with
    | error e => exact .refl _
    | ok a => exact hf a

theorem mapM {f : α → Except Error β} {g : γ → Except Error β} {xs : List α} {ys : List γ}
    (h : List.Forall₂ (fun a c => SameUnlessDeep (f a) (g c)) xs ys) :
    SameUnlessDeep (xs.mapM f) (ys.mapM g) := by
  induction h with
  | nil => exact .refl _
  | cons hfirst _ ih =>
    rw [List.mapM_cons, List.mapM_cons]
    exact hfirst.bind fun b => ih.bind fun bs => .refl _

end SameUnlessDeep

theorem rel_head? {α : Type} {R : α → α → Prop} {xs ys : List α} (h : List.Forall₂ R xs ys) :
    Option.Rel R xs.head? ys.head? := by
  cases h with
  | nil => exact .none
  | cons h _ => exact .some h

namespace Interspersed
variable {R S : ConcreteTree → ConcreteTree → Prop} {ts ts' : List ConcreteTree}

theorem imp (h : Interspersed R ts ts') (hS : ∀ t ∈ ts, ∀ t', R t t' → S t t') :
    Interspersed S ts ts' := by
  induction h with
  | nil => exact .nil
  | keep h _ ih =>
    rw [List.forall_mem_cons] at hS
    exact .keep (hS.1 _ h) (ih hS.2)
  | remark hc _ ih => exact .remark hc (ih hS)

/-- The members that are picked from two lists are related one by one, if no comment is picked. -/
theorem filter {p : ConcreteTree → Bool} (h : Interspersed R ts ts')
    (hremark : ∀ c, IsRemark c → p c = false) (hp : ∀ t t', R t t' → p t' = p t) :
    List.Forall₂ R (ts.filter p) (ts'.filter p) := by
  induction h with
  | nil => exact .nil
  | @keep t t' ts ts' ht _ ih =>
    have hsame := hp t t' ht
    cases hpicked : p t with
    | false => simpa [hpicked, hsame] using ih
    | true => simpa [hpicked, hsame] using ⟨ht, ih⟩
  | @remark c ts ts' hc _ ih => simpa [hremark c hc] using ih

theorem find? {p : ConcreteTree → Bool} (h : Interspersed R ts ts')
    (hremark : ∀ c, IsRemark c → p c = false) (hp : ∀ t t', R t t' → p t' = p t) :
    Option.Rel R (ts.find? p) (ts'.find? p) := by
  rw [← List.head?_filter, ← List.head?_filter]
  exact rel_head? (h.filter hremark hp)

theorem anyHasError (h : Interspersed R ts ts')
    (hR : ∀ t t', R t t' → t.hasError = false → t'.hasError = false)
    (hclean : ConcreteTree.anyHasError ts = false) : ConcreteTree.anyHasError ts' = false := by
  induction h with
  | nil => rfl
  | keep ht _ ih =>
    rw [ConcreteTree.anyHasError, Bool.or_eq_false_iff] at hclean ⊢
    exact ⟨hR _ _ ht hclean.1, ih hclean.2⟩
  | remark hc _ ih =>
    rw [ConcreteTree.anyHasError, Bool.or_eq_false_iff]
    exact ⟨hc.clean, ih hclean⟩

end Interspersed

theorem anyHasError_append (ts us : List ConcreteTree) :
    anyHasError (ts ++ us) = (anyHasError ts || anyHasError us) := by
  induction ts with
  | nil => rfl
  | cons t rest ih => rw [List.cons_append, anyHasError, anyHasError, ih, Bool.or_assoc]

theorem anyHasError_beside {ts : List ConcreteTree} (h : ∀ c ∈ ts, IsBeside c) :
    anyHasError ts = false := by
  induction ts with
  | nil => rfl
  | cons t rest ih =>
    rw [List.forall_mem_cons] at h
    rw [anyHasError, h.1.clean, ih h.2, Bool.or_false]

namespace Dressed
variable {t t' : ConcreteTree}

theorem hasError (h : Dressed t t') (hclean : t.hasError = false) : t'.hasError = false := by
  induction h with
  | node hR h _ _ ih =>
    rw [ConcreteTree.hasError, Bool.or_eq_false_iff] at hclean ⊢
    exact ⟨hclean.1, h.anyHasError ih hclean.2⟩
  | paren h _ _ hopening hclosing ih =>
    rw [ConcreteTree.hasError, anyHasError_append, anyHasError, hasError_withField, ih hclean,
      anyHasError_beside hopening, anyHasError_beside hclosing]
    rfl

theorem named_eq (h : Dressed t t') : t'.named = t.named := by
  cases h with
  | node => rfl
  | paren _ hnamed => exact hnamed.symm

theorem field_eq (h : Dressed t t') : t'.field = t.field := by
  cases h with
  | node => rfl
  | paren => rfl

theorem kind_eq_iff (h : Dressed t t') (kind : String) (hkind : kind ∈ pickedKinds) :
    t'.kind = kind ↔ t.kind = kind := by
  cases h with
  | node => rfl
  | paren _ _ hnot =>
    have hparen : "parenthesized_expression" ∉ pickedKinds := by decide
    constructor
    · rintro rfl
      exact absurd hkind hparen
    · rintro rfl
      exact absurd hkind hnot

theorem kind_beq (h : Dressed t t') (kind : String) (hkind : kind ∈ pickedKinds) :
    (t'.kind == kind) = (t.kind == kind) := by
  rw [Bool.eq_iff_iff, beq_iff_eq, beq_iff_eq, h.kind_eq_iff kind hkind]

theorem isComment_eq (h : Dressed t t') : t'.isComment = t.isComment := by
  rw [isComment, isComment, h.kind_beq _ (by decide), h.kind_beq _ (by decide)]

/-- What is no expression stands in no parentheses. -/
theorem of_picked (h : Dressed t t') (hpicked : t.named = false ∨ t.kind ∈ pickedKinds) :
    t'.extent = t.extent ∧ Interspersed Dressed t.children t'.children := by
  cases h with
  | node hR h _ _ => exact ⟨rfl, h.imp fun c _ => hR c⟩
  | paren _ hnamed hnot =>
    rcases hpicked with hpicked | hpicked
    · rw [hnamed] at hpicked
      cases hpicked
    · exact absurd hpicked hnot

end Dressed

/-- A tree of the shape that the grammar gives, and the tree with comments and parentheses. -/
def Redrawn (t t' : ConcreteTree) : Prop := Shaped t ∧ Dressed t t'

theorem Shaped.redrawn {t : ConcreteTree} {ts : List ConcreteTree} (ht : Shaped t)
    (h : Interspersed Dressed t.children ts) : Interspersed Redrawn t.children ts := by
  cases ht with
  | intro _ _ _ _ hchildren => exact h.imp fun c hc _ hdressed => ⟨hchildren c hc, hdressed⟩

namespace Redrawn
variable {t t' : ConcreteTree}

theorem children (h : Redrawn t t') (hpicked : t.named = false ∨ t.kind ∈ pickedKinds) :
    Interspersed Redrawn t.children t'.children :=
  h.1.redrawn (h.2.of_picked hpicked).2

theorem text_eq (h : Redrawn t t') (hnamed : t.named = false) (source : ByteArray) :
    text source t' = text source t := by
  rw [text, text, (h.2.of_picked (.inl hnamed)).1]

end Redrawn

section
variable {t t' : ConcreteTree} (h : Interspersed Redrawn t.children t'.children)
include h

theorem inField?_redrawn (name : String) :
    Option.Rel Redrawn (t.inField? name) (t'.inField? name) := by
  refine h.find? (fun c hc => ?_) fun c c' hc => ?_
  · rw [hc.field]
    rfl
  · rw [hc.2.field_eq]

/-- Children that are picked among those that are neither punctuation nor comments. -/
theorem namedChildren_redrawn {p : ConcreteTree → Bool}
    (hremark : ∀ c, c.isComment = true → p c = false) (hp : ∀ c c', Dressed c c' → p c' = p c) :
    List.Forall₂ Redrawn (t.namedChildren.filter p) (t'.namedChildren.filter p) := by
  rw [namedChildren, namedChildren, List.filter_filter, List.filter_filter]
  refine h.filter (fun c hc => ?_) fun c c' hc => ?_
  · rw [hremark c hc.comment, Bool.false_and]
  · rw [hp c c' hc.2, hc.2.named_eq]

theorem parts_redrawn : List.Forall₂ Redrawn (t.namedChildren.filter (!·.isComment))
    (t'.namedChildren.filter (!·.isComment)) :=
  namedChildren_redrawn h (fun c hc => by rw [hc, Bool.not_true]) fun c c' hc => by
    rw [hc.isComment_eq]

theorem firstPart?_redrawn : Option.Rel Redrawn t.firstPart? t'.firstPart? := by
  rw [firstPart?, firstPart?, ← List.head?_filter, ← List.head?_filter]
  exact rel_head? (parts_redrawn h)

theorem statementNodes_redrawn : List.Forall₂ Redrawn (statementNodes t) (statementNodes t') := by
  refine namedChildren_redrawn h (fun c hc => ?_) fun c c' hc => ?_
  · rw [hc, Bool.not_true, Bool.false_and]
  · rw [hc.isComment_eq, bne, bne, hc.kind_beq _ (by decide)]

theorem declarators_redrawn : List.Forall₂ Redrawn
    (t.namedChildren.filter (·.kind == "variable_declarator"))
    (t'.namedChildren.filter (·.kind == "variable_declarator")) := by
  refine namedChildren_redrawn h (fun c hc => ?_) fun c c' hc => hc.kind_beq _ (by decide)
  rw [isComment, Bool.or_eq_true, beq_iff_eq, beq_iff_eq] at hc
  rcases hc with hc | hc <;> rw [hc] <;> rfl

end

theorem rel_orElse {α : Type} {R : α → α → Prop} {a a' b b' : Option α} (ha : Option.Rel R a a')
    (hb : Option.Rel R b b') : Option.Rel R (a <|> b) (a' <|> b') := by
  cases ha with
  | none => exact hb
  | some h => exact .some h

/-- The token that a list of children begins with. -/
theorem head?_redrawn {ts ts' : List ConcreteTree} (h : Interspersed Redrawn ts ts')
    (htoken : ∀ c, ts.head? = some c → c.named = false)
    (hfirst : ∀ c, ts'.head? = some c → c.isComment = false) (source : ByteArray) :
    Option.Rel (fun c c' => text source c' = text source c) ts.head? ts'.head? := by
  cases h with
  | nil => exact .none
  | keep h _ => exact .some (h.text_eq (htoken _ rfl) source)
  | remark hc _ =>
    have hcomment := hfirst _ rfl
    rw [hc.comment] at hcomment
    cases hcomment

theorem alternative_redrawn {a a' : Option ConcreteTree} (h : Option.Rel Redrawn a a') :
    Option.Rel Redrawn (a.bind fun a => if a.kind = "else_clause" then a.firstPart? else some a)
      (a'.bind fun a => if a.kind = "else_clause" then a.firstPart? else some a) := by
  cases h with
  | none => exact .none
  | @some a a' h =>
    rw [Option.bind_some, Option.bind_some]
    have hkind := h.2.kind_eq_iff "else_clause" (by decide)
    by_cases helse : a.kind = "else_clause"
    · rw [if_pos helse, if_pos (hkind.mpr helse)]
      exact firstPart?_redrawn (h.children (.inr (by rw [helse]; decide)))
    · rw [if_neg helse, if_neg (hkind.not.mpr helse)]
      exact .some h

section
variable {build build' : ConcreteTree → Except Error Node}
  (h : ∀ c c', Redrawn c c' → SameUnlessDeep (build c) (build' c'))
include h

theorem mapM_redrawn {cs cs' : List ConcreteTree} (hcs : List.Forall₂ Redrawn cs cs') :
    SameUnlessDeep (cs.mapM build) (cs'.mapM build') :=
  .mapM (hcs.imp h)

theorem optional_redrawn {c c' : Option ConcreteTree} (hc : Option.Rel Redrawn c c') :
    SameUnlessDeep (optional build c) (optional build' c') := by
  cases hc with
  | none => exact .refl _
  | some hc => exact (h _ _ hc).bind fun n => .refl _

variable {α : Type} {k k' : Node → Except Error α}

/-- A child that has to be there is built before anything else. -/
theorem child_redrawn {c c' : Option ConcreteTree} (hc : Option.Rel Redrawn c c')
    (hk : ∀ n, SameUnlessDeep (k n) (k' n)) :
    SameUnlessDeep (need c >>= fun u => build u >>= k) (need c' >>= fun u => build' u >>= k') := by
  cases hc with
  | none => exact .refl _
  | some hc => exact (h _ _ hc).bind hk

theorem clause_redrawn {k k' : Option Node → Except Error α} {c c' : Option ConcreteTree}
    (hc : Option.Rel Redrawn c c') (hk : ∀ n, SameUnlessDeep (k n) (k' n)) :
    SameUnlessDeep (loopClause c >>= fun u => optional build u >>= k)
      (loopClause c' >>= fun u => optional build' u >>= k') := by
  cases hc with
  | none => exact hk none
  | @some c c' hc =>
    have hempty := hc.2.kind_eq_iff "empty_statement" (by decide)
    have hmark := hc.2.kind_eq_iff ";" (by decide)
    have hwrapped := hc.2.kind_eq_iff "expression_statement" (by decide)
    simp only [loopClause, hempty, hmark, hwrapped]
    split
    · exact hk none
    · split
      next hkind =>
        have hpart := firstPart?_redrawn (hc.children (.inr (by rw [hkind]; decide)))
        generalize c.firstPart? = part at hpart
        generalize c'.firstPart? = part' at hpart
        cases hpart with
        | none => exact .refl _
        | some hpart => exact (optional_redrawn h (.some hpart)).bind hk
      next => exact (optional_redrawn h (.some hc)).bind hk

theorem operands_redrawn {make : Node → Node → Node} {left left' right right' : Option ConcreteTree}
    (hleft : Option.Rel Redrawn left left') (hright : Option.Rel Redrawn right right') :
    SameUnlessDeep
      (do
        let lhs ← build (← need left)
        let rhs ← build (← need right)
        return make lhs rhs)
      (do
        let lhs ← build' (← need left')
        let rhs ← build' (← need right')
        return make lhs rhs) :=
  child_redrawn h hleft fun _ => child_redrawn h hright fun _ => .refl _

theorem operation_redrawn {make : String → Node → Node → Node} {source : ByteArray}
    {word word' : ConcreteTree} {left left' right right' : Option ConcreteTree}
    (hword : text source word' = text source word) (hleft : Option.Rel Redrawn left left')
    (hright : Option.Rel Redrawn right right') :
    SameUnlessDeep
      (do
        let operator ← orFault (text source word)
        let lhs ← build (← need left)
        let rhs ← build (← need right)
        return make operator lhs rhs)
      (do
        let operator ← orFault (text source word')
        let lhs ← build' (← need left')
        let rhs ← build' (← need right')
        return make operator lhs rhs) := by
  rw [hword]
  exact SameUnlessDeep.bind (.refl _) fun _ => operands_redrawn h hleft hright

/-- A node is built alike if its children are: comments among them are skipped, whichever way they
are looked for. -/
theorem nodeWith_redrawn (source : ByteArray) {t t' : ConcreteTree} (ht : Shaped t)
    (hkind : t'.kind = t.kind) (hextent : t'.extent = t.extent)
    (hs : Interspersed Redrawn t.children t'.children)
    (hkeyword : t.kind = "lexical_declaration" ∨ t.kind = "variable_declaration" →
      ∀ c, t'.children.head? = some c → c.isComment = false)
    (hstring : t.kind = "string" → t'.children = t.children) :
    SameUnlessDeep (nodeWith build source t) (nodeWith build' source t') := by
  have hloc : t'.location = t.location := congrArg Extent.location hextent
  have htext : text source t' = text source t := by rw [text, text, hextent]
  obtain ⟨operator, token, keyword, formals, -⟩ := ht
  unfold nodeWith
  rw [hkind, hloc, htext]
  generalize t.kind = kind at operator keyword formals hkeyword hstring ⊢
  dsimp only
  -- The kinds come in the order in which `nodeWith` has them.
  split
  case h_1 | h_2 => exact (mapM_redrawn h (statementNodes_redrawn hs)).bind fun body => .refl _
  case h_3 => exact child_redrawn h (firstPart?_redrawn hs) fun n => .refl _
  case h_4 | h_5 =>
    have hword := head?_redrawn hs (keyword (by simp)) (hkeyword (by simp)) source
    have hdeclarators := declarators_redrawn hs
    generalize t.children = ts at hword ⊢
    generalize t'.children = ts' at hword ⊢
    cases ts with
    | nil =>
      cases ts' with
      | nil => exact .refl _
      | cons word' rest' => cases hword
    | cons word rest =>
      cases ts' with
      | nil => cases hword
      | cons word' rest' =>
        cases hword with
        | some hword =>
          dsimp only
          rw [hword]
          refine SameUnlessDeep.bind (.refl _) fun spelled => ?_
          exact (mapM_redrawn h hdeclarators).bind fun declarators => .refl _
  case h_6 =>
    refine child_redrawn h (inField?_redrawn hs "name") fun id => ?_
    exact (optional_redrawn h (inField?_redrawn hs "value")).bind fun init => .refl _
  case h_7 =>
    refine child_redrawn h (inField?_redrawn hs "condition") fun test => ?_
    refine child_redrawn h (inField?_redrawn hs "consequence") fun consequent => ?_
    refine (optional_redrawn h ?_).bind fun alternate => .refl _
    exact alternative_redrawn (inField?_redrawn hs "alternative")
  case h_8 =>
    refine child_redrawn h (inField?_redrawn hs "condition") fun test => ?_
    exact child_redrawn h (inField?_redrawn hs "body") fun body => .refl _
  case h_9 =>
    refine clause_redrawn h (inField?_redrawn hs "initializer") fun init => ?_
    refine clause_redrawn h (inField?_redrawn hs "condition") fun test => ?_
    refine clause_redrawn h ?_ fun update => ?_
    · exact rel_orElse (inField?_redrawn hs "increment") (inField?_redrawn hs "update")
    · exact child_redrawn h (inField?_redrawn hs "body") fun body => .refl _
  case h_10 =>
    refine SameUnlessDeep.bind ?_ fun params => ?_
    · have hlist := inField?_redrawn hs "parameters"
      have hformals : ∀ list, t.inField? "parameters" = some list →
          list.kind = "formal_parameters" :=
        fun list hlist => formals rfl list (mem_of_inField? hlist) (field_of_inField? hlist)
      generalize t.inField? "parameters" = list at hlist hformals ⊢
      generalize t'.inField? "parameters" = list' at hlist ⊢
      cases hlist with
      | none => exact .refl _
      | some hlist =>
        refine mapM_redrawn h (parts_redrawn (hlist.children (.inr ?_)))
        rw [hformals _ rfl]
        decide
    · refine child_redrawn h (inField?_redrawn hs "name") fun id => ?_
      exact child_redrawn h (inField?_redrawn hs "body") fun body => .refl _
  case h_11 => exact (optional_redrawn h (firstPart?_redrawn hs)).bind fun argument => .refl _
  case h_12 | h_13 | h_14 | h_16 | h_17 | h_18 => exact .refl _
  case h_15 =>
    rw [namedChildren, namedChildren, hstring rfl]
    exact .refl _
  case h_19 =>
    obtain ⟨word, hfound⟩ := exists_inField? (operator rfl)
    have hnamed := token word (mem_of_inField? hfound) (field_of_inField? hfound)
    have hword := inField?_redrawn hs "operator"
    rw [hfound] at hword ⊢
    generalize t'.inField? "operator" = word' at hword ⊢
    cases hword with
    | some hword =>
      exact operation_redrawn h (hword.text_eq hnamed source) (inField?_redrawn hs "left")
        (inField?_redrawn hs "right")
  case h_20 | h_21 =>
    -- An assignment without an operator is a plain one.
    have hleft := inField?_redrawn hs "left"
    have hright := inField?_redrawn hs "right"
    have hword := inField?_redrawn hs "operator"
    have hnamed : ∀ word, t.inField? "operator" = some word → word.named = false :=
      fun word hfound => token word (mem_of_inField? hfound) (field_of_inField? hfound)
    generalize t.inField? "operator" = word at hword hnamed ⊢
    generalize t'.inField? "operator" = word' at hword ⊢
    cases hword with
    | none => exact operands_redrawn h hleft hright
    | some hword => exact operation_redrawn h (hword.text_eq (hnamed _ rfl) source) hleft hright
  case h_22 =>
    have hpart := firstPart?_redrawn hs
    generalize t.firstPart? = part at hpart ⊢
    generalize t'.firstPart? = part' at hpart ⊢
    cases hpart with
    | none => exact .refl _
    | some hpart => exact h _ _ hpart
  case h_23 => exact .refl _

end

theorem node_withField (source : ByteArray) (room : Nat) (t : ConcreteTree)
    (field : Option String) :
    node source room (t.withField field) = node source room t := by
  cases t
  cases room <;> rfl

/-- Parentheses are built as the expression in them, one level deeper. -/
theorem node_paren (source : ByteArray) (room : Nat) {extent : Extent} {named : Bool}
    {field : Option String} {standing : Standing} {opening closing : List ConcreteTree}
    {inner : ConcreteTree} (hopening : ∀ c ∈ opening, IsBeside c) (hnamed : inner.named = true)
    (hcomment : inner.isComment = false) :
    node source (room + 1) (.node "parenthesized_expression" extent named field standing
      (opening ++ inner :: closing)) = node source room inner := by
  have hpart : (ConcreteTree.node "parenthesized_expression" extent named field standing
      (opening ++ inner :: closing)).firstPart? = some inner := by
    have hskip : (opening.find? fun c => c.named && !c.isComment) = none := by
      rw [List.find?_eq_none]
      intro c hc
      rcases (hopening c hc).minor with hminor | hminor <;> simp [hminor]
    rw [firstPart?, namedChildren, List.find?_filter]
    simp [ConcreteTree.children, hskip, hnamed, hcomment]
  show (need _ >>= node source room) = _
  rw [hpart]
  rfl

/-- The extra levels are those of the parentheses that have been taken off. -/
theorem node_redrawn (source : ByteArray) (room extra : Nat) {t t' : ConcreteTree}
    (h : Redrawn t t') :
    SameUnlessDeep (node source (room + extra) t) (node source room t') := by
  induction room generalizing extra t t' with
  | zero => exact .inl rfl
  | succ room ih =>
    obtain ⟨ht, hdressed⟩ := h
    cases hdressed with
    | node hR h hkeyword hstring =>
      rw [Nat.add_right_comm]
      refine nodeWith_redrawn (fun c c' => ih extra) source ht rfl rfl ?_ hkeyword hstring
      exact ht.redrawn (h.imp fun c _ => hR c)
    | @paren _ inner extent field opening closing h hnamed hkind hopening hclosing =>
      have hinner : (inner.withField field).named = true := h.named_eq.trans hnamed
      have hcomment : (inner.withField field).isComment = false := by
        show inner.isComment = false
        rw [h.isComment_eq, isComment, Bool.or_eq_false_iff, beq_eq_false_iff_ne,
          beq_eq_false_iff_ne]
        exact ⟨fun heq => hkind (by rw [heq]; decide), fun heq => hkind (by rw [heq]; decide)⟩
      rw [node_paren source room hopening hinner hcomment, node_withField, Nat.add_assoc,
        Nat.add_comm 1]
      exact ih (extra + 1) ⟨ht, h⟩

theorem mem_children_of_firstPart? {t c : ConcreteTree} (h : t.firstPart? = some c) :
    c ∈ t.children :=
  List.mem_of_mem_filter (List.mem_of_find?_eq_some h)

theorem ok_mem_child {c : ConcreteTree} {found : Option ConcreteTree} :
    .ok c ∈ child found ↔ found = some c := by
  cases found <;> simp [child, eq_comm]

theorem ok_not_mem_stops {α : Type} {c : ConcreteTree} (x : Except Fault α) : .ok c ∉ stops x := by
  simp [stops]

theorem ok_mem_clause {c : ConcreteTree} {found : Option ConcreteTree} (h : .ok c ∈ clause found) :
    ∃ a, found = some a ∧ (c = a ∨ c ∈ a.children) := by
  cases found with
  | none => cases h
  | some a =>
    refine ⟨a, rfl, ?_⟩
    rw [clause] at h
    split at h
    · cases h
    · split at h
      · exact .inr (mem_children_of_firstPart? (ok_mem_child.mp h))
      · rw [List.mem_singleton, Except.ok.injEq] at h
        exact .inl h

theorem ok_mem_map {c : ConcreteTree} {cs : List ConcreteTree} :
    (.ok c : Visit) ∈ cs.map Except.ok ↔ c ∈ cs := by
  simp

def Below (t c : ConcreteTree) : Prop := ∃ d ∈ t.children, c = d ∨ c ∈ d.children

theorem below_of_mem {t c : ConcreteTree} (h : c ∈ t.children) : Below t c := ⟨c, h, .inl rfl⟩

theorem below_of_child {t c : ConcreteTree} {name : String} (h : .ok c ∈ child (t.inField? name)) :
    Below t c :=
  below_of_mem (mem_of_inField? (ok_mem_child.mp h))

theorem below_of_clause {t c : ConcreteTree} {name : String}
    (h : .ok c ∈ clause (t.inField? name)) :
    Below t c := by
  obtain ⟨a, ha, hc⟩ := ok_mem_clause h
  exact ⟨a, mem_of_inField? ha, hc⟩

theorem below_of_picked {t c : ConcreteTree} {p : ConcreteTree → Bool}
    (h : (.ok c : Visit) ∈ (t.namedChildren.filter p).map .ok) : Below t c :=
  below_of_mem (List.mem_of_mem_filter (List.mem_of_mem_filter (ok_mem_map.mp h)))

/-- What is built at a node is one of its children, or a child of one that is left out. -/
theorem below_of_visit {source : ByteArray} {t c : ConcreteTree} (h : .ok c ∈ visits source t) :
    Below t c := by
  unfold visits at h
  -- The kinds come in the order in which `visits` has them.
  split at h
  case h_1 | h_2 => exact below_of_picked h
  case h_3 | h_4 => exact below_of_mem (mem_children_of_firstPart? (ok_mem_child.mp h))
  case h_5 | h_6 =>
    split at h
    · simp at h
    · exact below_of_picked ((List.mem_append.mp h).resolve_left (ok_not_mem_stops _))
  case h_7 =>
    rcases List.mem_append.mp h with h | h
    · exact below_of_child h
    · rw [ok_mem_map, Option.mem_toList] at h
      exact below_of_mem (mem_of_inField? h)
  case h_8 =>
    rw [List.mem_append, List.mem_append, ok_mem_map, Option.mem_toList] at h
    rcases h with h | h | h
    · exact below_of_child h
    · exact below_of_child h
    · obtain ⟨a, ha, hc⟩ := Option.bind_eq_some_iff.mp h
      refine ⟨a, mem_of_inField? ha, ?_⟩
      split at hc
      · exact .inr (mem_children_of_firstPart? hc)
      · exact .inl (Option.some.inj hc).symm
  case h_9 => exact (List.mem_append.mp h).elim below_of_child below_of_child
  case h_10 =>
    rw [List.mem_append, List.mem_append, List.mem_append] at h
    rcases h with h | h | h | h
    · exact below_of_clause h
    · exact below_of_clause h
    · cases hincrement : t.inField? "increment" with
      | none =>
        rw [hincrement] at h
        exact below_of_clause h
      | some a =>
        rw [hincrement] at h
        change .ok c ∈ clause (some a) at h
        rw [← hincrement] at h
        exact below_of_clause h
    · exact below_of_child h
  case h_11 =>
    rw [List.mem_append, List.mem_append] at h
    rcases h with h | h | h
    · cases hlist : t.inField? "parameters" with
      | none =>
        rw [hlist] at h
        cases h
      | some list =>
        rw [hlist, ok_mem_map] at h
        exact ⟨list, mem_of_inField? hlist,
          .inr (List.mem_of_mem_filter (List.mem_of_mem_filter h))⟩
    · exact below_of_child h
    · exact below_of_child h
  case h_12 =>
    rw [ok_mem_map, Option.mem_toList] at h
    exact below_of_mem (mem_children_of_firstPart? h)
  case h_13 | h_14 | h_15 => exact absurd h (ok_not_mem_stops _)
  case h_16 =>
    rw [List.mem_append, List.mem_flatMap] at h
    rcases h with ⟨part, -, h⟩ | h
    · exact absurd h (ok_not_mem_stops _)
    · exact absurd h (ok_not_mem_stops _)
  case h_17 | h_18 | h_19 =>
    rw [List.mem_append, List.mem_append] at h
    rcases h with h | h | h
    · split at h
      · exact absurd h (ok_not_mem_stops _)
      · simp at h
    · exact below_of_child h
    · exact below_of_child h
  case h_20 => cases h

theorem height_lt_of_visit {source : ByteArray} {t c : ConcreteTree} (h : .ok c ∈ visits source t) :
    c.height < t.height := by
  obtain ⟨d, hd, rfl | hc⟩ := below_of_visit h
  · exact height_lt_of_mem hd
  · exact (height_lt_of_mem hc).trans (height_lt_of_mem hd)

/-- Only a tree that is too high is too deep to be built. -/
theorem lt_height_of_tooDeep {source : ByteArray} {room : Nat} {t : ConcreteTree}
    (h : node source room t = .error (.tooDeep .construction)) : room < t.height := by
  induction room generalizing t with
  | zero =>
    obtain ⟨kind, extent, named, field, standing, children⟩ := t
    rw [height]
    exact Nat.succ_pos _
  | succ room ih =>
    have hstops := nodeWith_stopsAt (fun c => StopsAt.errors (node source room c)) source t
    obtain ⟨visit, hvisit, herror⟩ := List.mem_flatMap.mp (hstops.mem_of_eq_error h)
    cases visit with
    | error f => simp [visitErrors] at herror
    | ok c =>
      have hdeep : node source room c = .error (.tooDeep .construction) := by
        cases hnode : node source room c with
        | ok n => simp [visitErrors, hnode, errors] at herror
        | error e =>
          rw [visitErrors, hnode, errors, List.mem_singleton] at herror
          rw [herror]
      exact Nat.lt_of_le_of_lt (ih hdeep) (height_lt_of_visit hvisit)

end Concrete

/-- Comments and parentheses are transparent: with any number of them added to a tree without
errors, the same syntax tree is built with the same spans, or the same fault is met, unless the
nodes on some path have become too many. -/
theorem ofConcrete_eq_of_dressed {limits : Limits} {source : ByteArray} {t t' : ConcreteTree}
    (hclean : t.hasError = false) (hshape : Concrete.Shaped t) (h : Concrete.Dressed t t') :
    Node.ofConcrete limits source t' = Node.ofConcrete limits source t ∨
      Node.ofConcrete limits source t' = .error (.tooDeep .construction) ∧
        limits.construction < t'.height := by
  have hclean' := h.hasError hclean
  rw [Node.ofConcrete, Node.ofConcrete, hclean, hclean']
  rcases Concrete.node_redrawn source limits.construction 0 ⟨hshape, h⟩ with hdeep | hsame
  · refine .inr ⟨?_, Concrete.lt_height_of_tooDeep hdeep⟩
    rw [hdeep]
    rfl
  · rw [Nat.add_zero] at hsame
    rw [hsame]
    exact .inl rfl

namespace Concrete

def tokenAt (kind : String) (start stop : Int) (named : Bool) (field : Option String) :
    ConcreteTree :=
  .node kind ⟨start, stop, 0, start, 0, stop⟩ named field {} []

theorem shaped_tokenAt {kind : String} {start stop : Int} {named : Bool} {field : Option String}
    (h : kind ≠ "binary_expression") : Shaped (tokenAt kind start stop named field) :=
  .intro (fun hkind => absurd hkind h) (fun _ hc => by cases hc) (fun _ _ hc => by cases hc)
    (fun _ _ hc => by cases hc) fun _ hc => by cases hc

theorem dressed_tokenAt {kind : String} {start stop : Int} {named : Bool} {field : Option String} :
    Dressed (tokenAt kind start stop named field) (tokenAt kind start stop named field) :=
  .node (fun _ _ h => h) .nil (fun _ _ hc => by cases hc) fun _ => rfl

def sumOf (children : List ConcreteTree) : ConcreteTree :=
  .node "binary_expression" ⟨0, 5, 0, 0, 0, 5⟩ true none {} children

def sumStatement (sum : ConcreteTree) : ConcreteTree :=
  .node "program" ⟨0, 6, 0, 0, 0, 6⟩ true none {}
    [.node "expression_statement" ⟨0, 6, 0, 0, 0, 6⟩ true none {} [sum, tokenAt ";" 5 6 false none]]

def plainSum : ConcreteTree :=
  sumOf [tokenAt "identifier" 0 1 true (some "left"), tokenAt "+" 2 3 false (some "operator"),
    tokenAt "identifier" 4 5 true (some "right")]

/-- The sum with a comment before its operator and twofold parentheses around its first operand. -/
def remarkedSum : ConcreteTree :=
  sumOf [.node "parenthesized_expression" ⟨0, 1, 0, 0, 0, 1⟩ true (some "left") {}
      [tokenAt "(" 0 0 false none, tokenAt "comment" 0 0 true none,
        .node "parenthesized_expression" ⟨0, 1, 0, 0, 0, 1⟩ true none {}
          [tokenAt "(" 0 0 false none, tokenAt "identifier" 0 1 true none,
            tokenAt ")" 1 1 false none],
        tokenAt ")" 1 1 false none],
    tokenAt "comment" 1 2 true none, tokenAt "+" 2 3 false (some "operator"),
    tokenAt "identifier" 4 5 true (some "right")]

theorem shaped_plainSum : Shaped plainSum := by
  refine .intro (fun _ => ⟨_, List.mem_cons_of_mem _ List.mem_cons_self, rfl⟩) ?_ ?_ ?_ ?_
  · simp [plainSum, sumOf, tokenAt, ConcreteTree.children, ConcreteTree.field, ConcreteTree.named]
  · simp [plainSum, sumOf, ConcreteTree.kind]
  · simp [plainSum, sumOf, ConcreteTree.kind]
  · simp [plainSum, sumOf, ConcreteTree.children, shaped_tokenAt]

theorem shaped_sumStatement : Shaped (sumStatement plainSum) := by
  have hstatement : Shaped (.node "expression_statement" ⟨0, 6, 0, 0, 0, 6⟩ true none {}
      [plainSum, tokenAt ";" 5 6 false none]) := by
    refine .intro (by simp [ConcreteTree.kind]) ?_ (by simp [ConcreteTree.kind])
      (by simp [ConcreteTree.kind]) ?_
    · simp [plainSum, sumOf, tokenAt, ConcreteTree.children, ConcreteTree.field]
    · simp [ConcreteTree.children, shaped_plainSum, shaped_tokenAt]
  refine .intro (by simp [sumStatement, ConcreteTree.kind]) ?_
    (by simp [sumStatement, ConcreteTree.kind])
    (by simp [sumStatement, ConcreteTree.kind]) ?_
  · simp [sumStatement, ConcreteTree.children, ConcreteTree.field]
  · simp [sumStatement, ConcreteTree.children, hstatement]

theorem dressed_remarkedSum : Dressed (sumStatement plainSum) (sumStatement remarkedSum) := by
  have hopen : IsBeside (tokenAt "(" 0 0 false none) := ⟨.inl rfl, rfl⟩
  have hinside : IsBeside (tokenAt "comment" 0 0 true none) := ⟨.inr rfl, rfl⟩
  have hclose : IsBeside (tokenAt ")" 1 1 false none) := ⟨.inl rfl, rfl⟩
  have honce := @Dressed.paren (tokenAt "identifier" 0 1 true (some "left")) _
      ⟨0, 1, 0, 0, 0, 1⟩ none _ _
    dressed_tokenAt rfl (by decide) (List.forall_mem_singleton.mpr hopen)
    (List.forall_mem_singleton.mpr hclose)
  have htwice := @Dressed.paren _ _ ⟨0, 1, 0, 0, 0, 1⟩ none _ _ honce rfl (by decide)
    (List.forall_mem_cons.mpr ⟨hopen, List.forall_mem_singleton.mpr hinside⟩)
    (List.forall_mem_singleton.mpr hclose)
  have hcomment : IsRemark (tokenAt "comment" 1 2 true none) := ⟨rfl, rfl, rfl⟩
  have hsum : Dressed plainSum remarkedSum :=
    .node (fun _ _ h => h)
      (.keep htwice (.remark hcomment (.keep dressed_tokenAt (.keep dressed_tokenAt .nil))))
      (by simp) (by simp)
  refine .node (fun _ _ h => h)
    (.keep (.node (fun _ _ h => h) (.keep hsum (.keep dressed_tokenAt .nil)) ?_ ?_)
    .nil) ?_ ?_ <;> simp

end Concrete

open Concrete in
theorem remarkedSum_built_alike :
    (sumStatement plainSum).hasError = false ∧ Shaped (sumStatement plainSum) ∧
      Dressed (sumStatement plainSum) (sumStatement remarkedSum) ∧
      ∀ source, Node.ofConcrete {} source (sumStatement remarkedSum) =
        Node.ofConcrete {} source (sumStatement plainSum) := by
  refine ⟨rfl, shaped_sumStatement, dressed_remarkedSum, fun source => ?_⟩
  rcases ofConcrete_eq_of_dressed rfl shaped_sumStatement dressed_remarkedSum with
    hsame | ⟨-, hheight⟩
  · exact hsame
  · exact absurd hheight (by decide)

end Sil
