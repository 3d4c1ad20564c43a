import Mathlib
import Sil.Proofs.EmissionRun

/-!
The naming part of an emission: which names were declared, and which are hoisted because they were
used first. Every instruction changes it in a way that depends neither on the target language nor on
the rest of the state.
-/
namespace Sil

/-- The names declared so far, and the hoisted ones in the order of their first use. -/
structure Naming where
  declared : List Name := []
  hoisted : List Name := []

namespace Naming

def knows (m : Naming) (n : Name) : Bool := n.isIn m.declared || n.isIn m.hoisted

def use (m : Naming) (n : Name) : Naming :=
  if m.knows n then m else { m with hoisted := m.hoisted ++ [n] }

def declare (m : Naming) (n : Name) : Naming := { m with declared := n.addTo m.declared }

end Naming

namespace Instruction

/-- The names that an instruction uses: those it reads, and then the one it writes. -/
def uses (i : Instruction) : List Name :=
  match i.opcode with
  | .mov | .binary _ => i.operands.filterMap Operand.name? ++ [Name.ofOption i.dest]
  | .cmp | .ret => i.operands.filterMap Operand.name?
  | _ => []

/-- The name that an instruction declares: a variable or a parameter. -/
def declares (i : Instruction) : Option Name :=
  match i.opcode with
  | .decl | .param => some (Name.ofOption i.name)
  | _ => none

end Instruction

def Naming.step (m : Naming) (i : Instruction) : Naming :=
  match i.declares with
  | some n => m.declare n
  | none => i.uses.foldl use m

def EmissionState.naming (s : EmissionState) : Naming := ⟨s.declared, s.hoisted.map (·.1)⟩

namespace EmissionState

theorem knows_eq (s : EmissionState) (n : Name) : s.knows n = s.naming.knows n := by
  have hhoisted : (n.typeIn? s.hoisted).isSome = n.isIn (s.hoisted.map (·.1)) := by
    rw [Name.typeIn?, Option.isSome_map, Name.isIn, List.any_map, List.isSome_find?]
    rfl
  rw [knows, hhoisted]
  rfl

theorem naming_noteUse (b : Backend) (s : EmissionState) (n : Name) (type : ValueType) :
    (s.noteUse b n type).naming = s.naming.use n := by
  unfold noteUse Naming.use
  rw [knows_eq]
  split
  · rfl
  · simp [naming, hoist]

theorem naming_closeBlock (b : Backend) (s : EmissionState) :
    (s.closeBlock b).naming = s.naming := by
  unfold closeBlock
  split
  · rfl
  · dsimp only
    split <;> split <;> rfl

end EmissionState

namespace Emission
open EmissionState

variable {b : Backend} {s s' t : EmissionState} {i : Instruction} {is : List Instruction} {k : Nat}
  {upcoming : Option Instruction}

theorem naming_noteReads {operands : List Operand} (h : noteReads b s operands = .ok t) :
    t.naming = (operands.filterMap Operand.name?).foldl Naming.use s.naming := by
  rw [noteReads_eq h]
  clear h
  generalize operands.filterMap Operand.name? = names
  induction names generalizing s with
  | nil => rfl
  | cons n names ih => rw [List.foldl_cons, List.foldl_cons, ih, naming_noteUse]

theorem Enters.naming_eq (h : Enters s s') : s'.naming = s.naming := by
  cases h <;> rfl

theorem Performs.naming_eq (h : Performs b upcoming s i s') : s'.naming = s.naming.step i := by
  -- What an instruction of a given kind declares and uses.
  have hdeclares (ho : i.opcode = .decl ∨ i.opcode = .param) :
      s.naming.step i = s.naming.declare (Name.ofOption i.name) := by
    rcases ho with ho | ho <;> simp [Naming.step, Instruction.declares, ho]
  have hassigns (ho : i.opcode = .mov ∨ ∃ op, i.opcode = .binary op) : s.naming.step i =
      ((i.operands.filterMap Operand.name?).foldl Naming.use s.naming).use
        (Name.ofOption i.dest) := by
    rcases ho with ho | ⟨op, ho⟩ <;> simp [Naming.step, Instruction.declares, Instruction.uses, ho]
  have hreads (ho : i.opcode = .cmp ∨ i.opcode = .ret) : s.naming.step i =
      (i.operands.filterMap Operand.name?).foldl Naming.use s.naming := by
    rcases ho with ho | ho <;> simp [Naming.step, Instruction.declares, Instruction.uses, ho]
  cases h with
  | declareUntyped _ ho | declareTyped _ ho | declareAgain _ ho =>
    rw [hdeclares (.inl ho)]
    rfl
  | param ho =>
    rw [hdeclares (.inr ho)]
    rfl
  | mov ho _ h =>
    rw [hassigns (.inl ho), ← naming_noteReads h]
    exact naming_noteUse b _ _ _
  | binary ho _ h =>
    rw [hassigns (.inr ⟨_, ho⟩), ← naming_noteReads h]
    exact naming_noteUse b _ _ _
  | cmp ho _ h =>
    rw [hreads (.inl ho), ← naming_noteReads h]
    rfl
  | ret ho h =>
    rw [hreads (.inr ho), ← naming_noteReads h]
    rfl
  | branch ho =>
    have hnothing : s.naming.step i = s.naming := by
      cases hop : i.opcode <;>
        simp_all [Opcode.isConditionalJump, Naming.step, Instruction.declares, Instruction.uses]
    rw [hnothing]
    rfl
  | jumpClosing ho =>
    rw [naming_closeBlock]
    simp [Naming.step, Instruction.declares, Instruction.uses, ho]
    rfl
  | labelClosing ho =>
    have hnothing : s.naming.step i = s.naming := by
      simp [Naming.step, Instruction.declares, Instruction.uses, ho]
    rw [hnothing]
    exact naming_closeBlock b s
  | endFunc ho =>
    rw [naming_closeBlock]
    simp [Naming.step, Instruction.declares, Instruction.uses, ho]
  | jump ho | label ho | func ho =>
    simp [Naming.step, Instruction.declares, Instruction.uses, ho]
    rfl

theorem naming_step (h : step b upcoming s i = .ok s') : s'.naming = s.naming.step i := by
  obtain ⟨t, u, henter, -, hperforms, rfl⟩ := step_cases h
  have ht : t.naming = s.naming := by
    rcases henter with ⟨-, rfl⟩ | ⟨-, henters⟩
    · rfl
    · exact henters.naming_eq
  rw [← ht]
  exact hperforms.naming_eq

/-- The names after a prefix are those that its instructions leave, in any target language. -/
theorem naming_after (hk : k ≤ is.length) (h : after b s is k = .ok s') :
    s'.naming = (is.take k).foldl Naming.step s.naming := by
  refine after_invariant (P := fun k t => t.naming = (is.take k).foldl Naming.step s.naming)
    (by simp) ?_ hk h
  intro k i t t' hi ht hstep
  rw [naming_step hstep, ht, List.take_add_one, hi, Option.toList_some, List.foldl_append]
  rfl

end Emission
end Sil
