import Mathlib
import Sil.Proofs.Subtree

/-!
The direct meaning of a syntax tree, for any values, operations and truth test. An expression is
evaluated from left to right to a value and an environment; a statement is a relation between the
environment before it, how it ends and the environment after it. A tree that does not end has no
environment after it.
-/
namespace Sil

def Node.Assigns (tree : Node) (x : String) : Prop :=
  ∃ loc operator targetLoc right,
    (assignment loc operator (.identifier targetLoc x) right).Subtree tree

theorem Node.not_assigns_iff {tree : Node} {x : String} :
    ¬ tree.Assigns x ↔
      ∀ m, Subtree m tree → ∀ loc operator targetLoc right,
        m ≠ .assignment loc operator (.identifier targetLoc x) right := by
  constructor
  · rintro h m hm loc operator targetLoc right rfl
    exact h ⟨loc, operator, targetLoc, right, hm⟩
  · rintro h ⟨loc, operator, targetLoc, right, hm⟩
    exact h _ hm loc operator targetLoc right rfl

/-- A name of the form that temporaries have: a `t` and digits. -/
def isTemporary (name : String) : Bool :=
  match name.toList with
  | 't' :: digits => !digits.isEmpty && digits.all Char.isDigit
  | _ => false

theorem isTemporary_tempName (n : Nat) : isTemporary (Counters.tempName n) := by
  have hdigits : (Nat.toDigits 10 n).all Char.isDigit := by
    rw [List.all_eq_true]
    intro d hd
    exact Nat.isDigit_of_mem_toDigits (by decide) (by decide) hd
  have hpos : Nat.toDigits 10 n ≠ [] := Nat.toDigits_ne_nil
  simp [isTemporary, Counters.tempName, Nat.repr, hdigits, hpos]

theorem ne_tempName {x : String} (hx : isTemporary x = false) (k : Nat) :
    x ≠ Counters.tempName k := by
  rintro rfl
  rw [isTemporary_tempName] at hx
  cases hx

abbrev Env (V : Type*) := String → V

/-- Two environments that differ in temporaries at most. -/
def Agree {V : Type*} (e e' : Env V) : Prop := ∀ x, isTemporary x = false → e x = e' x

namespace Agree

variable {V : Type*} {e e' e'' : Env V}

theorem refl (e : Env V) : Agree e e := fun _ _ => rfl

theorem symm (h : Agree e e') : Agree e' e := fun x hx => (h x hx).symm

theorem trans (h : Agree e e') (h' : Agree e' e'') : Agree e e'' :=
  fun x hx => (h x hx).trans (h' x hx)

theorem update (h : Agree e e') (x : String) (v : V) :
    Agree (Function.update e x v) (Function.update e' x v) := by
  intro y hy
  by_cases hyx : y = x
  · subst hyx
    simp
  · simpa [hyx] using h y hy

theorem update_temp (h : Agree e e') (k : Nat) (v : V) :
    Agree (Function.update e (Counters.tempName k) v) e' := by
  intro y hy
  rw [Function.update_of_ne (ne_tempName hy k)]
  exact h y hy

end Agree

/-- A domain of values: what literals and operators mean, which values count as true, and what the
declaration of a name does. A declaration does not look at temporaries. -/
structure Interpretation (V : Type*) where
  literal : Json → V
  operation : BinaryOp → V → V → V
  truthy : V → Bool
  declare : String → Env V → Env V
  declare_agree : ∀ x e e', Agree e e' → Agree (declare x e) (declare x e')

/-- How a statement ends: at its end, or with a return and the value that it gives, if any. -/
inductive Outcome (V : Type*) where
  | normal
  | returned (value : Option V)

abbrev Effect (V : Type*) := Env V → Outcome V → Env V → Prop

namespace Effect

variable {V : Type*}

def skip : Effect V := fun e o e' => o = .normal ∧ e' = e

def andThen (first second : Effect V) : Effect V := fun e o e' =>
  (∃ e₁, first e .normal e₁ ∧ second e₁ o e') ∨ ∃ v, o = .returned v ∧ first e (.returned v) e'

@[simp] theorem andThen_skip (X : Effect V) : X.andThen skip = X := by
  funext e o e'
  apply propext
  constructor
  · rintro (⟨e₁, hX, rfl, rfl⟩ | ⟨v, rfl, hX⟩)
    · exact hX
    · exact hX
  · intro hX
    cases o with
    | normal => exact .inl ⟨e', hX, rfl, rfl⟩
    | returned v => exact .inr ⟨v, rfl, hX⟩

def choose (test : Env V → Bool → Env V → Prop) (yes no : Effect V) : Effect V := fun e o e' =>
  ∃ b e₁, test e b e₁ ∧ (if b then yes else no) e₁ o e'

/-- Rounds as long as a test holds before them, unless one returns. -/
inductive Repeating (test : Env V → Bool → Env V → Prop) (round : Effect V) : Effect V
  | stop {e e₁ : Env V} (h : test e false e₁) : Repeating test round e .normal e₁
  | again {e e₁ e₂ e₃ : Env V} {o : Outcome V} (h : test e true e₁) (hround : round e₁ .normal e₂)
      (rest : Repeating test round e₂ o e₃) : Repeating test round e o e₃
  | leave {e e₁ e₂ : Env V} {v : Option V} (h : test e true e₁)
      (hround : round e₁ (.returned v) e₂) :
      Repeating test round e (.returned v) e₂

end Effect

namespace Interpretation
open Effect

variable {V : Type*} (I : Interpretation V)

/-- Whether the value of the left operand decides a logical operator. -/
def decides (operator : String) (value : V) : Option Bool :=
  if operator = "&&" then some (!I.truthy value)
  else if operator = "||" then some (I.truthy value)
  else none

def eval : Node → Env V → Option (V × Env V)
  | .literal _ value _, e => some (I.literal value, e)
  | .identifier _ name, e => some (e name, e)
  | .binary _ operator left right, e =>
    match BinaryOp.ofSymbol? operator with
    | none => none
    | some op => do
      let (lhs, e) ← eval left e
      let (rhs, e) ← eval right e
      return (I.operation op lhs rhs, e)
  | .logical _ operator left right, e => do
    let (lhs, e) ← eval left e
    match I.decides operator lhs with
    | none => none
    | some decided => if decided then return (lhs, e) else eval right e
  | .assignment _ operator (.identifier _ target) right, e =>
    if operator = "=" then do
      let (value, e) ← eval right e
      return (value, Function.update e target value)
    else none
  | _, _ => none

private theorem not_assigns_child {n m : Node} {x : String} (hm : m ∈ n.children)
    (h : ¬ n.Assigns x) : ¬ m.Assigns x := by
  rintro ⟨loc, operator, targetLoc, right, ha⟩
  exact h ⟨loc, operator, targetLoc, right, .under hm ha⟩

/-- An expression changes no variable but those that it assigns. -/
theorem eval_keeps (n : Node) {e e' : Env V} {v : V} {x : String} (h : I.eval n e = some (v, e'))
    (hx : ¬ n.Assigns x) : e' x = e x := by
  cases n with
  | literal | identifier =>
    cases h
    rfl
  | binary loc operator left right =>
    have hleft : ¬ left.Assigns x := not_assigns_child (by simp [Node.children]) hx
    have hright : ¬ right.Assigns x := not_assigns_child (by simp [Node.children]) hx
    simp only [eval] at h
    split at h
    · cases h
    · obtain ⟨⟨lhs, e₁⟩, hl, h⟩ := Option.bind_eq_some_iff.mp h
      obtain ⟨⟨rhs, e₂⟩, hr, h⟩ := Option.bind_eq_some_iff.mp h
      cases h
      exact (eval_keeps right hr hright).trans (eval_keeps left hl hleft)
  | logical loc operator left right =>
    have hleft : ¬ left.Assigns x := not_assigns_child (by simp [Node.children]) hx
    have hright : ¬ right.Assigns x := not_assigns_child (by simp [Node.children]) hx
    simp only [eval] at h
    obtain ⟨⟨lhs, e₁⟩, hl, h⟩ := Option.bind_eq_some_iff.mp h
    have hkeep := eval_keeps left hl hleft
    dsimp only at h
    split at h
    · cases h
    · split at h
      · cases h
        exact hkeep
      · exact (eval_keeps right h hright).trans hkeep
  | assignment loc operator left right =>
    have hright : ¬ right.Assigns x := not_assigns_child (by simp [Node.children]) hx
    cases left with
    | identifier targetLoc target =>
      have hne : x ≠ target := by
        rintro rfl
        exact hx ⟨_, _, _, _, .root _⟩
      simp only [eval] at h
      split at h
      · obtain ⟨⟨value, e₁⟩, hr, h⟩ := Option.bind_eq_some_iff.mp h
        cases h
        simpa [hne] using eval_keeps right hr hright
      · cases h
    | _ => simp [eval] at h
  | _ => simp [eval] at h

def evaluated (n : Node) : Effect V := fun e o e' => o = .normal ∧ ∃ v, I.eval n e = some (v, e')

def tested (n : Node) (e : Env V) (b : Bool) (e' : Env V) : Prop :=
  ∃ v, I.eval n e = some (v, e') ∧ I.truthy v = b

/-- The test of a loop, which holds where it is left out. -/
def loopTest : Option Node → Env V → Bool → Env V → Prop
  | none => fun e b e' => b = true ∧ e' = e
  | some n => I.tested n

def loopUpdate : Option Node → Effect V
  | none => skip
  | some n => I.evaluated n

mutual

/-- What a statement does. A function declaration is passed over. -/
def Executes : Node → Effect V
  | .program _ body => ExecutesAll body
  | .block _ body => ExecutesAll body
  | .declaration _ _ declarators => ExecutesAll declarators
  | .declarator _ (.identifier _ name) none => fun e o e' => o = .normal ∧ e' = I.declare name e
  | .declarator _ (.identifier _ name) (some init) => fun e o e' =>
    o = .normal ∧ ∃ v e₁, I.eval init (I.declare name e) = some (v, e₁) ∧
      e' = Function.update e₁ name v
  | .declarator _ _ _ => fun _ _ _ => False
  | .expression _ n => I.evaluated n
  | .conditional _ test consequent alternate =>
    choose (I.tested test) (Executes consequent)
      (match alternate with
        | none => skip
        | some alternate => Executes alternate)
  | .whileLoop _ test body => Repeating (I.tested test) (Executes body)
  | .forLoop _ init test update body =>
    andThen
      (match init with
        | none => skip
        | some init => Executes init)
      (Repeating (I.loopTest test) (andThen (Executes body) (I.loopUpdate update)))
  | .function _ _ _ _ => skip
  | .ret _ none => fun e o e' => o = .returned none ∧ e' = e
  | .ret _ (some argument) => fun e o e' =>
    ∃ v, I.eval argument e = some (v, e') ∧ o = .returned (some v)
  | n => I.evaluated n

def ExecutesAll : List Node → Effect V
  | [] => skip
  | n :: rest => andThen (Executes n) (ExecutesAll rest)

end

theorem executes_forLoop {loc : Option Location} {init test update : Option Node} {body : Node} :
    I.Executes (.forLoop loc init test update body) =
      andThen (I.ExecutesAll init.toList)
        (Repeating (I.loopTest test) (andThen (I.Executes body) (I.loopUpdate update))) := by
  cases init <;> simp only [Executes, Option.toList_none, Option.toList_some, ExecutesAll,
    andThen_skip]

end Interpretation
end Sil
