import Mathlib
import Sil.Proofs.LoweredEmission
import Sil.Proofs.TreeEdits

/-!
Nothing but the spans in a result depends on the spans of a tree. Lowering a tree without its spans
gives the code without its spans or the error without its span, and the emission never looks at a
span; so two trees that differ in spans only compile alike.
-/
namespace Sil

def Instruction.unplaced (i : Instruction) : Instruction := { i with location := .unknown }

def Error.unplaced : Error → Error
  | .unsupportedConstruct kind _ detail => .unsupportedConstruct kind none detail
  | .unsupportedOperator operator kind _ => .unsupportedOperator operator kind none
  | .invalidTarget kind _ => .invalidTarget kind none
  | .badSyntax detail _ => .badSyntax detail none
  | e => e

/-- A result with its spans forgotten, where `f` forgets those of a value. -/
def unplacing {α : Type} (f : α → α) : Except Error α → Except Error α
  | .ok a => .ok (f a)
  | .error e => .error e.unplaced

section
variable {α β : Type} {f : α → α} {g : β → β}

@[simp] theorem unplacing_ok (a : α) : unplacing f (.ok a) = .ok (f a) := rfl

@[simp] theorem unplacing_error (e : Error) : unplacing f (.error e) = .error e.unplaced := rfl

@[simp] theorem unplacing_pure (a : α) : unplacing f (pure a) = pure (f a) := rfl

/-- Steps that each forget their spans forget them together. -/
theorem bind_unplacing {x y : Except Error α} {k l : α → Except Error β} (hx : y = unplacing f x)
    (hk : ∀ a, l (f a) = unplacing g (k a)) : y >>= l = unplacing g (x >>= k) := by
  subst hx
  cases x with
  | error e => rfl
  | ok a => exact hk a

end

namespace Lowering

/-- Code without its spans, with what was found beside it. -/
def unplacedCode {γ : Type} (r : List Instruction × γ) : List Instruction × γ :=
  (r.1.map Instruction.unplaced, r.2)

theorem inner_unplacing (s : Scope) : inner s = unplacing id (inner s) := by
  unfold inner
  split <;> rfl

theorem literal_unplacing (value : Json) (raw : String) :
    Operand.literal value raw = unplacing id (Operand.literal value raw) := by
  unfold Operand.literal
  split
  · rfl
  · split <;> rfl

theorem parameters_unplacing (ps : List Node) :
    parameters (ps.map (.edit .unplaced)) =
      unplacing (·.map Instruction.unplaced) (parameters ps) := by
  induction ps with
  | nil => rfl
  | cons p rest ih =>
    cases p with
    | identifier loc name =>
      rw [List.map_cons, Node.edit, parameters, parameters]
      exact bind_unplacing ih fun code => rfl
    | _ => simp [parameters, Node.edit, Error.unplaced, Node.kind, Node.loc]

/-- The jump of a logical operator has its place from its argument. -/
theorem shortCut?_unplaced {operator : String} {skip : String → Location → Instruction}
    (h : shortCut? operator = some skip) (label : String) (loc : Location) :
    (skip label loc).unplaced = skip label .unknown := by
  obtain ⟨-, rfl⟩ | ⟨-, rfl⟩ := shortCut?_eq_some.mp h <;> rfl

theorem expression_unplacing (n : Node) (s : Scope) (c : Counters) :
    expression s c (n.edit .unplaced) = unplacing unplacedCode (expression s c n) := by
  cases n with
  | literal loc value raw =>
    rw [Node.edit, expression, expression]
    refine bind_unplacing (inner_unplacing s) fun s => ?_
    exact bind_unplacing (literal_unplacing value raw) fun operand => rfl
  | identifier loc name =>
    rw [Node.edit, expression, expression]
    exact bind_unplacing (inner_unplacing s) fun s => rfl
  | binary loc operator left right =>
    rw [Node.edit, expression, expression]
    refine bind_unplacing (inner_unplacing s) fun s => ?_
    dsimp only [id]
    cases BinaryOp.ofSymbol? operator with
    | none => rfl
    | some op =>
      refine bind_unplacing (expression_unplacing left s c) fun r => ?_
      refine bind_unplacing (expression_unplacing right s r.2.2) fun r => ?_
      simp [unplacedCode, Instruction.unplaced, Instruction.binary, Node.place, Node.loc]
  | logical loc operator left right =>
    rw [Node.edit, expression, expression]
    refine bind_unplacing (inner_unplacing s) fun s => ?_
    dsimp only [id]
    cases h : shortCut? operator with
    | none => rfl
    | some skip =>
      refine bind_unplacing (expression_unplacing left s c) fun r => ?_
      refine bind_unplacing (expression_unplacing right s _) fun r' => ?_
      simp [unplacedCode, shortCut?_unplaced h, Node.place, Node.loc]
      simp [Instruction.unplaced, Instruction.cmp, Instruction.mov, Instruction.jump,
        Instruction.mark]
  | assignment loc operator left right =>
    rw [Node.edit, expression, expression]
    refine bind_unplacing (inner_unplacing s) fun s => ?_
    dsimp only [id]
    by_cases h : operator = "="
    · simp only [h, ne_eq, not_true_eq_false, if_false]
      cases left with
      | identifier targetLoc target =>
        refine bind_unplacing (expression_unplacing right s c) fun r => ?_
        simp [unplacedCode, Instruction.unplaced, Instruction.mov, Node.place, Node.loc]
      | _ => rfl
    · simp only [h, ne_eq, not_false_eq_true, if_true]
      rfl
  | _ =>
    rw [Node.edit, expression, expression]
    exact bind_unplacing (inner_unplacing s) fun s => rfl

mutual

theorem statement_unplacing (n : Node) (s : Scope) (c : Counters) :
    statement s c (n.edit .unplaced) = unplacing unplacedCode (statement s c n) := by
  -- An expression in the place of a statement is not taken apart, so its case is needed whole.
  have hexpression := expression_unplacing n s c
  cases n with
  | program loc body =>
    rw [Node.edit, statement, statement]
    exact bind_unplacing (inner_unplacing s) fun s => statements_unplacing body s c
  | block loc body =>
    rw [Node.edit, statement, statement]
    exact bind_unplacing (inner_unplacing s) fun s => statements_unplacing body s c
  | declaration loc kind declarators =>
    rw [Node.edit, statement, statement, Node.editAll_eq]
    refine bind_unplacing (inner_unplacing s) fun s => ?_
    have h := statements_unplacing declarators s c
    simpa using h
  | declarator loc id init =>
    rw [Node.edit, statement, statement]
    refine bind_unplacing (inner_unplacing s) fun s => ?_
    cases id with
    | identifier nameLoc name =>
      cases init with
      | none => rfl
      | some init =>
        refine bind_unplacing (expression_unplacing init s c) fun r => ?_
        simp [unplacedCode, Instruction.unplaced, Instruction.mov, Instruction.decl, Node.place,
          Node.loc]
    | _ => rfl
  | expression loc e =>
    rw [Node.edit, statement, statement]
    refine bind_unplacing (inner_unplacing s) fun s => ?_
    exact bind_unplacing (expression_unplacing e s c) fun r => rfl
  | conditional loc test consequent alternate =>
    rw [Node.edit, statement, statement]
    refine bind_unplacing (inner_unplacing s) fun s => ?_
    refine bind_unplacing (expression_unplacing test s c) fun r => ?_
    cases alternate with
    | none =>
      refine bind_unplacing (statement_unplacing consequent s _) fun r' => ?_
      simp [unplacedCode, Instruction.unplaced, Instruction.cmp, Instruction.jumpIfFalse,
        Instruction.mark, Node.place, Node.loc]
    | some alternate =>
      refine bind_unplacing (statement_unplacing consequent s _) fun r' => ?_
      refine bind_unplacing (statement_unplacing alternate s _) fun r'' => ?_
      simp [unplacedCode, Instruction.unplaced, Instruction.cmp, Instruction.jumpIfFalse,
        Instruction.jump, Instruction.mark, Node.place, Node.loc]
  | whileLoop loc test body =>
    rw [Node.edit, statement, statement]
    refine bind_unplacing (inner_unplacing s) fun s => ?_
    refine bind_unplacing (expression_unplacing test s _) fun r => ?_
    refine bind_unplacing (statement_unplacing body s _) fun r' => ?_
    simp [unplacedCode, Instruction.unplaced, Instruction.cmp, Instruction.jumpIfFalse,
      Instruction.jump, Instruction.mark, Node.place, Node.loc]
  | forLoop loc init test update body =>
    rw [Node.edit, statement, statement]
    refine bind_unplacing (inner_unplacing s) fun s => ?_
    refine bind_unplacing (f := unplacedCode) ?_ fun first => ?_
    · cases init with
      | none => rfl
      | some init => exact statement_unplacing init s c
    refine bind_unplacing (f := unplacedCode) ?_ fun tested => ?_
    · cases test with
      | none => rfl
      | some test =>
        refine bind_unplacing (expression_unplacing test s _) fun r => ?_
        simp [unplacedCode, Instruction.unplaced, Instruction.cmp, Instruction.jumpIfFalse,
          Node.place, Node.loc]
    refine bind_unplacing (statement_unplacing body s _) fun repeated => ?_
    refine bind_unplacing (f := unplacedCode) ?_ fun updated => ?_
    · cases update with
      | none => rfl
      | some update => exact bind_unplacing (expression_unplacing update s _) fun r => rfl
    simp [unplacedCode, Instruction.unplaced, Instruction.jump, Instruction.mark, Node.place,
      Node.loc]
  | function loc id params body =>
    rw [Node.edit, statement, statement, Node.editAll_eq]
    refine bind_unplacing (inner_unplacing s) fun s => ?_
    by_cases hf : s.inFunction
    · simp only [hf, if_true, id_eq]
      rfl
    · simp only [hf, id_eq]
      cases id with
      | identifier nameLoc name =>
        refine bind_unplacing (parameters_unplacing params) fun paramCode => ?_
        refine bind_unplacing (statement_unplacing body _ c) fun r => ?_
        simp [unplacedCode, Instruction.unplaced, Instruction.func, Instruction.endFunc, Node.place,
          Node.loc]
      | _ => rfl
  | ret loc argument =>
    rw [Node.edit, statement, statement]
    refine bind_unplacing (inner_unplacing s) fun s => ?_
    cases argument with
    | none => rfl
    | some argument =>
      refine bind_unplacing (expression_unplacing argument s c) fun r => ?_
      simp [unplacedCode, Instruction.unplaced, Instruction.ret, Node.place, Node.loc]
  | literal | identifier | binary | logical | assignment | foreign =>
    rw [Node.edit] at hexpression ⊢
    rw [statement, statement]
    exact bind_unplacing hexpression fun r => rfl

theorem statements_unplacing (ns : List Node) (s : Scope) (c : Counters) :
    statements s c (Node.editBody .unplaced ns) = unplacing unplacedCode (statements s c ns) := by
  cases ns with
  | nil => rfl
  | cons n rest =>
    rw [Node.editBody, Node.Edit.unplaced_drops, if_neg Bool.false_ne_true, statements, statements]
    refine bind_unplacing (statement_unplacing n s c) fun r => ?_
    refine bind_unplacing (statements_unplacing rest s r.2) fun r' => ?_
    simp [unplacedCode]

end

theorem lower_unplacing {limits : Limits} (n : Node) :
    (n.edit .unplaced).lower limits = unplacing (·.map Instruction.unplaced) (n.lower limits) :=
  bind_unplacing (statement_unplacing n (outermost limits) {}) fun _ => rfl

end Lowering

namespace Emission

theorem step_unplaced (b : Backend) (upcoming : Option Instruction) (s : EmissionState)
    (i : Instruction) : step b (upcoming.map .unplaced) s i.unplaced = step b upcoming s i := by
  cases upcoming <;> rfl

theorem run_unplaced (b : Backend) (code : List Instruction) (s : EmissionState) :
    run b s (code.map .unplaced) = run b s code := by
  induction code generalizing s with
  | nil => rfl
  | cons i rest ih =>
    rw [List.map_cons, run, run, List.head?_map, step_unplaced]
    exact congrArg _ (funext ih)

theorem render_unplaced (b : Backend) (indent : String) (code : List Instruction) :
    b.render indent (code.map .unplaced) = b.render indent code := by
  rw [Backend.render, Backend.render, emit, emit, run_unplaced]

end Emission

theorem listing_unplaced (code : List Instruction) :
    Instruction.listing (code.map .unplaced) = Instruction.listing code := by
  rw [Instruction.listing, List.map_map]
  rfl

def Compiled.unplaced (c : Compiled) : Compiled :=
  { c with instructions := c.instructions.map Instruction.unplaced }

section
variable {α β : Type} {f : α → Except Error β}

theorem mapM_unplacing {xs : List α} (h : ∀ a ∈ xs, f a = unplacing id (f a)) :
    xs.mapM f = unplacing id (xs.mapM f) := by
  induction xs with
  | nil => rfl
  | cons a rest ih =>
    rw [List.forall_mem_cons] at h
    rw [List.mapM_cons]
    refine bind_unplacing h.1 fun b => ?_
    exact bind_unplacing (ih h.2) fun bs => rfl

end

theorem requested_unplacing (settings : Settings) (names : Option (List Name)) :
    settings.requested names = unplacing id (settings.requested names) := by
  refine mapM_unplacing fun n _ => ?_
  unfold Backend.requested
  split
  · rfl
  · split
    · split <;> rfl
    · rfl

/-- The text of lowered code has no error with a span. -/
theorem render_unplacing {limits : Limits} {tree : Node} {code : List Instruction}
    (h : tree.lower limits = .ok code) (b : Backend) (indent : String) :
    b.render indent code = unplacing id (b.render indent code) := by
  rw [Backend.render]
  obtain ⟨s, hs, -⟩ | ⟨hs, -⟩ := Lowering.emit_of_lower h b
  · rw [hs]
    rfl
  · rw [hs]
    rfl

/-- A tree without its spans compiles to what the tree compiles to, without the spans. -/
theorem compile_unplacing (n : Node) (settings : Settings) (names : Option (List Name)) :
    (n.edit .unplaced).compile settings names =
      unplacing Compiled.unplaced (n.compile settings names) := by
  rw [Node.compile, Node.compile]
  refine bind_unplacing (requested_unplacing settings names) fun backends => ?_
  rw [Node.compileTo, Node.compileTo, Lowering.lower_unplacing]
  cases hlower : n.lower settings.host.limits with
  | error e => rfl
  | ok code =>
    have houtputs : ((distinct backends).mapM fun b => do
        return (b.name, ← b.render settings.indent (code.map .unplaced))) =
        unplacing id ((distinct backends).mapM fun b => do
          return (b.name, ← b.render settings.indent code)) := by
      simp only [Emission.render_unplaced]
      refine mapM_unplacing fun b _ => ?_
      exact bind_unplacing (render_unplacing hlower b settings.indent) fun text => rfl
    rw [unplacing_ok, ok_bind, ok_bind]
    refine bind_unplacing houtputs fun outputs => ?_
    rw [listing_unplaced]
    rfl

/-- Trees that differ in their spans only compile alike, up to spans. -/
theorem compile_congr {m n : Node} (h : m.edit .unplaced = n.edit .unplaced) (settings : Settings)
    (names : Option (List Name)) :
    unplacing Compiled.unplaced (m.compile settings names) =
      unplacing Compiled.unplaced (n.compile settings names) := by
  rw [← compile_unplacing, ← compile_unplacing, h]

end Sil
