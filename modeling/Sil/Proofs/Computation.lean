import Mathlib
import Sil.Proofs.Implementation

/-!
Stretches of code that compute an expression. They leave the value in an operand and do not touch
the temporaries below a number, so the value of an operand that was computed before is still there:
a literal always, a temporary by its number, and a variable that the code does not assign.
-/
namespace Sil
open Counters Lowering

namespace Interpretation

variable {V : Type*} (I : Interpretation V) (program : List Instruction)

/-- From one position to another, the program computes an expression and leaves its value in an
operand. It changes no temporary below `low`. -/
def Computes (p q : Nat) (n : Node) (value : Operand) (low : Nat) : Prop :=
  ∀ ⦃m e : Env V⦄, Agree m e → ∃ v e' m', I.eval n e = some (v, e') ∧
    I.Reaches program ⟨p, m, none⟩ ⟨q, m', none⟩ ∧ Agree m' e' ∧ I.operand m' value = some v ∧
    ∀ k < low, m' (tempName k) = m (tempName k)

variable {I program} {p q r low low' k : Nat} {n left right : Node} {value lhs rhs : Operand}
  {loc : Option Location} {place : Location} {operator x : String}

namespace Computes

theorem literal {v : Json} {raw spelling : String} :
    I.Computes program p p (.literal loc v raw) (.const v spelling) low :=
  fun m e hm => ⟨I.literal v, e, m, rfl, .refl, hm, rfl, fun _ _ => rfl⟩

theorem identifier (hx : isTemporary x = false) :
    I.Computes program p p (.identifier loc x) (.var x) low :=
  fun m e hm => ⟨e x, e, m, rfl, .refl, hm, congrArg some (hm x hx), fun _ _ => rfl⟩

/-- The left operand has to survive the code of the right one. -/
theorem binary {op : BinaryOp} (hop : BinaryOp.ofSymbol? operator = some op)
    (hl : I.Computes program p q left lhs low) (hr : I.Computes program q r right rhs low')
    (hsurvives : ∀ {m₁ m₂ e₁ e₂ : Env V} {w : V}, Agree m₁ e₁ → Agree m₂ e₂ →
      I.eval right e₁ = some (w, e₂) → (∀ k < low', m₂ (tempName k) = m₁ (tempName k)) →
      I.operand m₂ lhs = I.operand m₁ lhs)
    (hlow : low ≤ low') (hk : low' ≤ k)
    (hown : program[r]? = some (.binary op (tempName k) lhs rhs place)) :
    I.Computes program p (r + 1) (.binary loc operator left right) (.temp (tempName k)) low := by
  intro m e hm
  obtain ⟨v, e₁, m₁, hev, hreach, hm₁, hv, hkeep⟩ := hl hm
  obtain ⟨w, e₂, m₂, hew, hreach', hm₂, hw, hkeep'⟩ := hr hm₁
  have hv₂ : I.operand m₂ lhs = some v := (hsurvives hm₁ hm₂ hew hkeep').trans hv
  refine ⟨I.operation op v w, e₂, Function.update m₂ (tempName k) (I.operation op v w), ?_, ?_,
    hm₂.update_temp k _, ?_, ?_⟩
  · simp [eval, hop, hev, hew]
  · exact (hreach.trans hreach').step (step_binary hown hv₂ hw)
  · simp [operand]
  · intro j hj
    rw [Function.update_of_ne (by simp; omega), hkeep' j (by omega), hkeep j hj]

theorem assignment {targetLoc : Option Location} (hx : isTemporary x = false)
    (hr : I.Computes program p q right value low)
    (hown : program[q]? = some (.mov x value place)) :
    I.Computes program p (q + 1) (.assignment loc "=" (.identifier targetLoc x) right) (.var x)
      low := by
  intro m e hm
  obtain ⟨v, e₁, m₁, hev, hreach, hm₁, hv, hkeep⟩ := hr hm
  refine ⟨v, Function.update e₁ x v, Function.update m₁ x v, ?_, hreach.step (step_mov hown hv),
    hm₁.update x v, ?_, ?_⟩
  · simp [eval, hev]
  · simp [operand]
  · intro j hj
    rw [Function.update_of_ne (ne_tempName hx j).symm, hkeep j hj]

/-- The jump of a logical operator is taken when the left operand decides. -/
private theorem step_shortCut {skip : String → Location → Instruction} {e : Env V} {v : V} {j : Nat}
    (hskip : shortCut? operator = some skip) (h : program[p]? = some (skip x place))
    (hx : landing program (some x) = some j) :
    ∃ decided, I.decides operator v = some decided ∧
      I.step program ⟨p, e, some v⟩ =
        some (.running ⟨if decided then j else p + 1, e, none⟩) := by
  obtain ⟨rfl, rfl⟩ | ⟨rfl, rfl⟩ := shortCut?_eq_some.mp hskip
  · refine ⟨!I.truthy v, by simp [decides], ?_⟩
    rw [step_jumpIfFalse h hx]
    cases I.truthy v <;> rfl
  · exact ⟨I.truthy v, by simp [decides], step_jumpIfTrue h hx⟩

/-- Both ways through a logical operator end after its last label, with the value of the operand
that decided in the same temporary. -/
theorem logical {skip : String → Location → Instruction} {short done : String}
    (hskip : shortCut? operator = some skip)
    (hl : I.Computes program p q left lhs low) (hr : I.Computes program (q + 2) r right rhs low')
    (hlow : low ≤ low') (hk : low ≤ k)
    (hcmp : program[q]? = some (.cmp lhs place)) (hjump : program[q + 1]? = some (skip short place))
    (hmov : program[r]? = some (.mov (tempName k) rhs place))
    (hover : program[r + 1]? = some (.jump done place))
    (hshort : program[r + 2]? = some (.mark short))
    (hmov' : program[r + 3]? = some (.mov (tempName k) lhs place))
    (hdone : program[r + 4]? = some (.mark done))
    (hlands : landing program (some short) = some (r + 2))
    (hlands' : landing program (some done) = some (r + 4)) :
    I.Computes program p (r + 5) (.logical loc operator left right) (.temp (tempName k)) low := by
  intro m e hm
  obtain ⟨v, e₁, m₁, hev, hreach, hm₁, hv, hkeep⟩ := hl hm
  obtain ⟨decided, hdecided, hstep⟩ := step_shortCut (I := I) (e := m₁) (v := v) hskip hjump hlands
  have htest := (hreach.step (step_cmp hcmp hv)).step hstep
  cases decided with
  | true =>
    refine ⟨v, e₁, Function.update m₁ (tempName k) v, ?_, ?_, hm₁.update_temp k v, ?_, ?_⟩
    · simp [eval, hev, hdecided]
    · exact ((htest.step (step_mark hshort)).step (step_mov hmov' hv)).step (step_mark hdone)
    · simp [operand]
    · intro j hj
      rw [Function.update_of_ne (by simp; omega), hkeep j hj]
  | false =>
    obtain ⟨w, e₂, m₂, hew, hreach', hm₂, hw, hkeep'⟩ := hr hm₁
    refine ⟨w, e₂, Function.update m₂ (tempName k) w, ?_, ?_, hm₂.update_temp k w, ?_, ?_⟩
    · simp [eval, hev, hdecided, hew]
    · exact (((htest.trans hreach').step (step_mov hmov hw)).step (step_jump hover hlands')).step
        (step_mark hdone)
    · simp [operand]
    · intro j hj
      rw [Function.update_of_ne (by simp; omega), hkeep' j (by omega), hkeep j hj]

/-- An expression that is computed for its effects. -/
theorem implements (h : I.Computes program p q n value low) :
    I.Implements program p q (I.evaluated n) := by
  refine .of_total fun m e hm => ?_
  obtain ⟨v, e', m', hev, hreach, hm', -⟩ := h hm
  refine ⟨.normal, e', m', fun o e₁ => ?_, hreach, hm'⟩
  simp [evaluated, hev, eq_comm]

/-- A test and the jump that leaves when it fails. -/
theorem branches (h : I.Computes program p q n value low)
    (hcmp : program[q]? = some (.cmp value place))
    (hjump : program[q + 1]? = some (.jumpIfFalse x place))
    (hlands : landing program (some x) = some k) :
    I.Branches program p (q + 2) k (I.tested n) := by
  intro m e hm
  obtain ⟨v, e', m', hev, hreach, hm', hv, -⟩ := h hm
  refine ⟨I.truthy v, e', m', fun b e₁ => ?_, ?_, hm'⟩
  · simp only [tested, hev, Option.some.injEq, Prod.mk.injEq]
    constructor
    · rintro ⟨_, ⟨rfl, rfl⟩, rfl⟩
      exact ⟨rfl, rfl⟩
    · rintro ⟨rfl, rfl⟩
      exact ⟨v, ⟨rfl, rfl⟩, rfl⟩
  · exact (hreach.step (step_cmp hcmp hv)).step (step_jumpIfFalse hjump hlands)

end Computes
end Interpretation
end Sil
