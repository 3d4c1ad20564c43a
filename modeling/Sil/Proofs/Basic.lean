import Mathlib
import Sil.Lowering

/-!
Facts that the other proofs share: when a computation in steps succeeds, that the names which
lowering makes up are different for different numbers, and the fields of the instructions it makes.
-/
namespace Sil

/-- A computation in two steps succeeds when both steps do. -/
theorem bind_eq_ok {ε α β : Type} {x : Except ε α} {f : α → Except ε β} {r : β} :
    x >>= f = .ok r ↔ ∃ a, x = .ok a ∧ f a = .ok r := by
  cases x <;> simp [bind, Except.bind]

theorem ok_bind {ε α β : Type} (a : α) (f : α → Except ε β) : Except.ok a >>= f = f a := rfl

namespace Counters

@[simp] theorem labelName_inj {m n : Nat} : labelName m = labelName n ↔ m = n := by
  simp [labelName, String.append_right_inj, Nat.repr_inj]

@[simp] theorem tempName_inj {m n : Nat} : tempName m = tempName n ↔ m = n := by
  simp [tempName, String.append_right_inj, Nat.repr_inj]

end Counters

namespace Instruction

@[simp] theorem decl_opcode (name : String) (loc : Location) : (decl name loc).opcode = .decl := rfl

@[simp] theorem mov_opcode (dest : String) (source : Operand) (loc : Location) :
    (mov dest source loc).opcode = .mov := rfl

@[simp] theorem binary_opcode (op : BinaryOp) (dest : String) (left right : Operand)
    (loc : Location) : (binary op dest left right loc).opcode = .binary op := rfl

@[simp] theorem cmp_opcode (source : Operand) (loc : Location) : (cmp source loc).opcode = .cmp :=
  rfl

@[simp] theorem jumpIfFalse_opcode (label : String) (loc : Location) :
    (jumpIfFalse label loc).opcode = .jumpIfFalse := rfl

@[simp] theorem jumpIfTrue_opcode (label : String) (loc : Location) :
    (jumpIfTrue label loc).opcode = .jumpIfTrue := rfl

@[simp] theorem jump_opcode (label : String) (loc : Location) : (jump label loc).opcode = .jump :=
  rfl

@[simp] theorem mark_opcode (label : String) : (mark label).opcode = .label := rfl

@[simp] theorem func_opcode (name : String) (loc : Location) : (func name loc).opcode = .func := rfl

@[simp] theorem param_opcode (name : String) (loc : Location) : (param name loc).opcode = .param :=
  rfl

@[simp] theorem endFunc_opcode (loc : Location) : (endFunc loc).opcode = .endFunc := rfl

@[simp] theorem ret_opcode (value : Option Operand) (loc : Location) :
    (ret value loc).opcode = .ret := rfl

@[simp] theorem jumpIfFalse_label (label : String) (loc : Location) :
    (jumpIfFalse label loc).label = some label := rfl

@[simp] theorem jumpIfTrue_label (label : String) (loc : Location) :
    (jumpIfTrue label loc).label = some label := rfl

@[simp] theorem jump_label (label : String) (loc : Location) :
    (jump label loc).label = some label := rfl

@[simp] theorem mark_label (label : String) : (mark label).label = some label := rfl

end Instruction

namespace Lowering

/-- The jump of a logical operator is one of the two conditional jumps. -/
theorem shortCut?_eq_some {operator : String} {skip : String → Location → Instruction} :
    shortCut? operator = some skip ↔
      (operator = "&&" ∧ skip = Instruction.jumpIfFalse) ∨
      (operator = "||" ∧ skip = Instruction.jumpIfTrue) := by
  unfold shortCut?
  split
  · rename_i h
    simp [h, eq_comm]
  · rename_i h
    split <;> simp_all [eq_comm]

theorem literal_eq_ok {value : Json} {raw : String} {operand : Operand}
    (h : Operand.literal value raw = .ok operand) :
    ∃ spelling, operand = .const value spelling := by
  unfold Operand.literal at h
  split at h
  · cases h
    exact ⟨raw, rfl⟩
  · split at h <;> cases h
    exact ⟨_, rfl⟩

theorem parameters_eq_ok {params : List Node} {code : List Instruction}
    (h : parameters params = .ok code) :
    ∀ i ∈ code, ∃ loc name, .identifier loc name ∈ params ∧
      i = .param name (loc.getD .unknown) := by
  induction params generalizing code with
  | nil =>
    cases h
    simp
  | cons p rest ih =>
    unfold parameters at h
    split at h
    · rename_i loc name
      obtain ⟨restCode, hr, h⟩ := bind_eq_ok.mp h
      cases h
      intro i hi
      obtain rfl | hi := List.mem_cons.mp hi
      · exact ⟨loc, name, List.mem_cons_self, rfl⟩
      · obtain ⟨loc', name', hmem, rfl⟩ := ih hr i hi
        exact ⟨loc', name', List.mem_cons_of_mem _ hmem, rfl⟩
    · cases h

end Lowering
end Sil
