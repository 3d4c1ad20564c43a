import Mathlib
import Sil.Proofs.Basic

/-!
What the lowering of a tree stops at. Every node is checked by itself before any of its parts, so
all that is wrong with a tree can be listed in the order in which lowering comes to it; lowering
fails with the first entry of this list and succeeds if there is none.
-/
namespace Sil

/-- A computation that fails with the first of some errors, and succeeds if there are none. -/
def StopsAt {ε α : Type} (x : Except ε α) (es : List ε) : Prop :=
  match x with
  | .ok _ => es = []
  | .error e => es.head? = some e

def errors {ε α : Type} : Except ε α → List ε
  | .ok _ => []
  | .error e => [e]

namespace StopsAt

variable {ε α β : Type} {x : Except ε α} {es es' : List ε}

theorem ok (a : α) : StopsAt (.ok a : Except ε α) [] := rfl

theorem error (e : ε) (es : List ε) : StopsAt (.error e : Except ε α) (e :: es) := rfl

theorem errors (x : Except ε α) : StopsAt x (errors x) := by
  cases x <;> rfl

/-- Two steps stop at what the first one stops at, and then at what the second one stops at. -/
theorem bind {f : α → Except ε β} (hx : StopsAt x es) (hf : ∀ a, x = .ok a → StopsAt (f a) es') :
    StopsAt (x >>= f) (es ++ es') := by
  cases x with
  | ok a =>
    obtain rfl : es = [] := hx
    exact hf a rfl
  | error e =>
    have hhead : es.head? = some e := hx
    show (es ++ es').head? = some e
    rw [List.head?_append, hhead]
    rfl

/-- A last step that cannot fail adds nothing. -/
theorem bind_ok {f : α → Except ε β} (hx : StopsAt x es) (hf : ∀ a, ∃ b, f a = .ok b) :
    StopsAt (x >>= f) es := by
  have hboth : StopsAt (x >>= f) (es ++ []) := by
    refine hx.bind fun a _ => ?_
    obtain ⟨b, hb⟩ := hf a
    rw [hb]
    rfl
  rwa [List.append_nil] at hboth

/-- Two steps that stop at what they find in lists stop at what is found in both. -/
theorem bind_flatMap {γ : Type} {f : α → Except ε β} {g : γ → List ε} {xs ys : List γ}
    (hx : StopsAt x (xs.flatMap g)) (hf : ∀ a, StopsAt (f a) (ys.flatMap g)) :
    StopsAt (x >>= f) ((xs ++ ys).flatMap g) := by
  rw [List.flatMap_append]
  exact hx.bind fun a _ => hf a

theorem mapM {f : α → Except ε β} {g : α → List ε} {xs : List α}
    (h : ∀ a ∈ xs, StopsAt (f a) (g a)) :
    StopsAt (xs.mapM f) (xs.flatMap g) := by
  induction xs with
  | nil => rfl
  | cons a xs ih =>
    rw [List.mapM_cons, List.flatMap_cons]
    refine (h a List.mem_cons_self).bind fun b _ => ?_
    exact (ih fun a ha => h a (List.mem_cons_of_mem _ ha)).bind_ok fun bs => ⟨b :: bs, rfl⟩

theorem eq_error_iff (h : StopsAt x es) {e : ε} : x = .error e ↔ es.head? = some e := by
  cases x with
  | ok a =>
    obtain rfl : es = [] := h
    simp
  | error e' =>
    have hhead : es.head? = some e' := h
    simp [hhead]

theorem mem_of_eq_error (h : StopsAt x es) {e : ε} (hx : x = .error e) : e ∈ es :=
  List.mem_of_head? (h.eq_error_iff.mp hx)

theorem ok_iff (h : StopsAt x es) : (∃ a, x = .ok a) ↔ es = [] := by
  cases x with
  | ok a => exact ⟨fun _ => h, fun _ => ⟨a, rfl⟩⟩
  | error e =>
    constructor
    · rintro ⟨a, ha⟩
      cases ha
    · rintro rfl
      cases h

end StopsAt

namespace Lowering

inductive Role where
  | expression
  | statement

/-- What a name is refused for if it is not spelled by an identifier. -/
def nameRefusals : Node → List Error
  | .identifier .. => []
  | n => [.unsupportedConstruct n.kind n.loc ""]

def ownRefusals (inFunction : Bool) : Role → Node → List Error
  | _, .literal _ value raw =>
    if raw = "" ∧ value.isWritable = false then [.fault (.digitLimit none)] else []
  | _, .identifier .. => []
  | _, .binary loc operator _ _ =>
    if (BinaryOp.ofSymbol? operator).isSome then []
    else [.unsupportedOperator operator "BinaryExpression" loc]
  | _, .logical loc operator _ _ =>
    if (shortCut? operator).isSome then []
    else [.unsupportedOperator operator "LogicalExpression" loc]
  | _, .assignment loc operator left _ =>
    if operator ≠ "=" then [.unsupportedOperator operator "AssignmentExpression" loc]
    else if (nameRefusals left).isEmpty then []
    else [.invalidTarget left.kind (left.loc <|> loc)]
  | .statement, .declarator _ id _ => nameRefusals id
  | .statement, .function loc id params _ =>
    (if inFunction then
      [.unsupportedConstruct "FunctionDeclaration" loc "nested inside a function"] else []) ++
    nameRefusals id ++ params.flatMap nameRefusals
  | .statement, .program .. | .statement, .block .. | .statement, .declaration ..
  | .statement, .expression .. | .statement, .conditional .. | .statement, .whileLoop ..
  | .statement, .forLoop .. | .statement, .ret .. => []
  | _, n => [.unsupportedConstruct n.kind n.loc ""]

/-- The parts of a node that are lowered, in their order. -/
def parts : Node → List (Role × Node)
  | .program _ body | .block _ body | .declaration _ _ body => body.map (.statement, ·)
  | .declarator _ _ init => init.toList.map (.expression, ·)
  | .binary _ _ left right | .logical _ _ left right => [(.expression, left), (.expression, right)]
  | .assignment _ _ _ right => [(.expression, right)]
  | .expression _ e => [(.expression, e)]
  | .conditional _ test consequent alternate =>
    (.expression, test) :: (.statement, consequent) :: alternate.toList.map (.statement, ·)
  | .whileLoop _ test body => [(.expression, test), (.statement, body)]
  | .forLoop _ init test update body =>
    init.toList.map (.statement, ·) ++ test.toList.map (.expression, ·) ++ (.statement, body) ::
      update.toList.map (.expression, ·)
  | .function _ _ _ body => [(.statement, body)]
  | .ret _ argument => argument.toList.map (.expression, ·)
  | .literal .. | .identifier .. | .foreign .. => []

def within (inFunction : Bool) : Node → Bool
  | .function .. => true
  | _ => inFunction

/-- All that is wrong with a tree that may nest so deep, in the order in which lowering comes to
it. -/
def refusals : Nat → Bool → Role → Node → List Error
  | 0, _, _, _ => [.tooDeep .lowering]
  | room + 1, inFunction, role, n =>
    ownRefusals inFunction role n ++
      (parts n).flatMap fun part => refusals room (within inFunction n) part.1 part.2

theorem literal_stopsAt (value : Json) (raw : String) : StopsAt (Operand.literal value raw)
    (if raw = "" ∧ value.isWritable = false then [.fault (.digitLimit none)] else []) := by
  unfold Operand.literal
  by_cases hraw : raw = ""
  · cases hvalue : value.isWritable <;> simp [hraw, StopsAt]
  · simp [hraw, StopsAt]

theorem parameters_stopsAt (params : List Node) :
    StopsAt (parameters params) (params.flatMap nameRefusals) := by
  induction params with
  | nil => rfl
  | cons p rest ih =>
    cases p with
    | identifier loc name => exact ih.bind_ok fun code => ⟨_, rfl⟩
    | _ => exact .error _ _

/-- An expression stops at what it is refused for itself, and then at what its operands stop at. -/
theorem expression_stopsAt (room : Nat) (f : Bool) (c : Counters) (n : Node) :
    StopsAt (expression ⟨room, f⟩ c n) (refusals room f .expression n) := by
  -- The induction is on the room: all parts of a node are lowered with one level less.
  induction room generalizing c n with
  | zero => cases n <;> rw [expression] <;> rfl
  | succ room ih =>
    have hinner : inner ⟨room + 1, f⟩ = .ok ⟨room, f⟩ := rfl
    cases n with
    | literal loc value raw =>
      rw [expression, hinner]
      exact (literal_stopsAt value raw).bind fun operand _ => rfl
    | identifier loc name =>
      rw [expression]
      rfl
    | binary loc operator left right =>
      show StopsAt _ ((if (BinaryOp.ofSymbol? operator).isSome then [] else _) ++
        (refusals room f .expression left ++ (refusals room f .expression right ++ [])))
      rw [expression, hinner]
      dsimp only [ok_bind]
      cases hop : BinaryOp.ofSymbol? operator with
      | none => exact .error _ _
      | some op =>
        refine (ih c left).bind fun result _ => ?_
        obtain ⟨leftCode, lhs, c₁⟩ := result
        exact (ih c₁ right).bind fun result _ => rfl
    | logical loc operator left right =>
      show StopsAt _ ((if (shortCut? operator).isSome then [] else _) ++
        (refusals room f .expression left ++ (refusals room f .expression right ++ [])))
      rw [expression, hinner]
      dsimp only [ok_bind]
      cases hskip : shortCut? operator with
      | none => exact .error _ _
      | some skip =>
        refine (ih c left).bind fun result _ => ?_
        obtain ⟨leftCode, lhs, c₁⟩ := result
        exact (ih _ right).bind fun result _ => rfl
    | assignment loc operator left right =>
      show StopsAt _
          ((if operator ≠ "=" then _ else _) ++ (refusals room f .expression right ++ []))
      rw [expression, hinner]
      by_cases hop : operator = "="
      · subst hop
        cases left with
        | identifier targetLoc target => exact (ih c right).bind fun result _ => rfl
        | _ => exact .error _ _
      · simp only [ne_eq, hop, not_false_eq_true, ↓reduceIte]
        exact .error _ _
    | _ =>
      rw [expression]
      rfl

/-- A list of statements stops at the first of them that stops. -/
theorem statements_stopsAt {s : Scope} {g : Node → List Error}
    (h : ∀ c n, StopsAt (statement s c n) (g n)) (c : Counters) (ns : List Node) :
    StopsAt (statements s c ns) (ns.flatMap g) := by
  induction ns generalizing c with
  | nil => rfl
  | cons n rest ih =>
    rw [statements, List.flatMap_cons]
    refine (h c n).bind fun result _ => ?_
    exact (ih _).bind_ok fun more => ⟨_, rfl⟩

theorem statement_stopsAt (room : Nat) (f : Bool) (c : Counters) (n : Node) :
    StopsAt (statement ⟨room, f⟩ c n) (refusals room f .statement n) := by
  induction room generalizing f c n with
  | zero =>
    -- A bare expression has the room of its statement, any other statement is too deep at once.
    have hexpression := expression_stopsAt 0 f c n
    cases n with
    | literal | identifier | binary | logical | assignment | foreign =>
      rw [statement]
      exact hexpression.bind_ok fun result => ⟨_, rfl⟩
    | _ =>
      rw [statement]
      rfl
  | succ room ih =>
    have hinner : inner ⟨room + 1, f⟩ = .ok ⟨room, f⟩ := rfl
    have hexpression := expression_stopsAt (room + 1) f c n
    cases n with
    | program loc body | block loc body =>
      rw [statement, hinner, refusals, parts, List.flatMap_map]
      exact statements_stopsAt (ih f) c body
    | declaration loc kind declarators =>
      rw [statement, hinner, refusals, parts, List.flatMap_map]
      exact statements_stopsAt (ih f) c declarators
    | declarator loc id init =>
      rw [statement, hinner]
      cases id with
      | identifier nameLoc name =>
        cases init with
        | none => rfl
        | some init => exact (expression_stopsAt room f c init).bind fun result _ => rfl
      | _ => exact .error _ _
    | expression loc e =>
      rw [statement, hinner]
      exact (expression_stopsAt room f c e).bind fun result _ => rfl
    | conditional loc test consequent alternate =>
      rw [statement, hinner]
      refine (expression_stopsAt room f c test).bind fun result _ => ?_
      obtain ⟨testCode, tested, c₁⟩ := result
      cases alternate with
      | none => exact (ih f _ consequent).bind fun result _ => rfl
      | some alternate =>
        refine (ih f _ consequent).bind fun result _ => ?_
        exact (ih f _ alternate).bind fun result _ => rfl
    | whileLoop loc test body =>
      rw [statement, hinner]
      refine (expression_stopsAt room f _ test).bind fun result _ => ?_
      exact (ih f _ body).bind fun result _ => rfl
    | forLoop loc init test update body =>
      rw [statement, hinner]
      dsimp only [ok_bind]
      show StopsAt _
          ((init.toList.map (Role.statement, ·) ++ test.toList.map (Role.expression, ·) ++
        (Role.statement, body) :: update.toList.map (Role.expression, ·)).flatMap
          fun part => refusals room f part.1 part.2)
      rw [List.flatMap_append, List.flatMap_append, List.flatMap_cons, List.append_assoc]
      refine StopsAt.bind ?_ fun initResult _ => StopsAt.bind ?_ fun testResult _ => ?_
      · cases init with
        | none => rfl
        | some init =>
          show StopsAt _ (refusals room f .statement init ++ [])
          rw [List.append_nil]
          exact ih f c init
      · cases test with
        | none => rfl
        | some test => exact (expression_stopsAt room f _ test).bind fun result _ => rfl
      · refine (ih f _ body).bind fun result _ => StopsAt.bind_ok ?_ fun result => ⟨_, rfl⟩
        cases update with
        | none => rfl
        | some update => exact (expression_stopsAt room f _ update).bind fun result _ => rfl
    | function loc id params body =>
      rw [statement, hinner]
      cases f with
      | true => exact .error _ _
      | false =>
        cases id with
        | identifier nameLoc name =>
          refine (parameters_stopsAt params).bind fun paramCode _ => ?_
          exact (ih true c body).bind fun result _ => rfl
        | _ => exact .error _ _
    | ret loc argument =>
      rw [statement, hinner]
      cases argument with
      | none => rfl
      | some argument => exact (expression_stopsAt room f c argument).bind fun result _ => rfl
    | literal | identifier | binary | logical | assignment | foreign =>
      rw [statement]
      exact hexpression.bind_ok fun result => ⟨_, rfl⟩

end Lowering

/-- All that is wrong with a whole program, in the order in which lowering comes to it. -/
def Node.refusals (limits : Limits) (tree : Node) : List Error :=
  Lowering.refusals limits.lowering false .statement tree

theorem Lowering.lower_stopsAt (limits : Limits) (tree : Node) :
    StopsAt (tree.lower limits) (tree.refusals limits) :=
  (statement_stopsAt limits.lowering false {} tree).bind_ok fun result => ⟨result.1, rfl⟩

end Sil
