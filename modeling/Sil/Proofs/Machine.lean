import Mathlib
import Sil.Proofs.Evaluation
import Sil.Proofs.Streams

/-!
A machine that runs SIL. It reads the instruction at its position, changes the environment and goes
on, at the next position or at a label; it stops at the end of the code or at a return, and is stuck
where an instruction has no meaning. Main statement: a run is cut at any state that it passes, so
what the machine does from there on decides how the whole run ends.
-/
namespace Sil

/-- The position, the values of all names and the value that the last instruction tested. -/
structure MachineState (V : Type*) where
  pc : Nat
  env : Env V
  tested : Option V

inductive Progress (V : Type*) where
  | running (s : MachineState V)
  | halted (o : Outcome V) (e : Env V)

def landing (code : List Instruction) (label : Option String) : Option Nat :=
  code.findIdx? fun i => i.opcode = .label ∧ i.label = label

namespace MachineState

variable {V : Type*} (s : MachineState V)

def next (e : Env V) : Progress V := .running ⟨s.pc + 1, e, none⟩

def jump (code : List Instruction) (label : Option String) : Option (Progress V) :=
  match landing code label with
  | some k => some (.running ⟨k, s.env, none⟩)
  | none => none

end MachineState

namespace Interpretation

variable {V : Type*} (I : Interpretation V)

def operand (e : Env V) : Operand → Option V
  | .const value _ => some (I.literal value)
  | .var (.text name) => some (e name)
  | .temp (.text name) => some (e name)
  | _ => none

/-- One instruction. A jump right after a test goes by the tested value; a function is passed
over. -/
def step (code : List Instruction) (s : MachineState V) : Option (Progress V) :=
  match code[s.pc]? with
  | none => some (.halted .normal s.env)
  | some i =>
    match i.opcode with
    | .label => some (s.next s.env)
    | .decl =>
      match i.name with
      | some name => some (s.next (I.declare name s.env))
      | none => none
    | .mov =>
      match i.dest, i.operands with
      | some dest, [a] => do return s.next (Function.update s.env dest (← I.operand s.env a))
      | _, _ => none
    | .binary op =>
      match i.dest, i.operands with
      | some dest, [a, b] => do
        let v := I.operation op (← I.operand s.env a) (← I.operand s.env b)
        return s.next (Function.update s.env dest v)
      | _, _ => none
    | .cmp =>
      match i.operands with
      | [a] => do return .running ⟨s.pc + 1, s.env, some (← I.operand s.env a)⟩
      | _ => none
    | .jumpIfFalse =>
      match s.tested with
      | some v => if I.truthy v then some (s.next s.env) else s.jump code i.label
      | none => none
    | .jumpIfTrue =>
      match s.tested with
      | some v => if I.truthy v then s.jump code i.label else some (s.next s.env)
      | none => none
    | .jump => s.jump code i.label
    | .func =>
      match matchingEnd 0 (code.drop (s.pc + 1)) with
      | some d => some (.running ⟨s.pc + 1 + d + 1, s.env, none⟩)
      | none => none
    | .ret =>
      match i.operands with
      | [] => some (.halted (.returned none) s.env)
      | [a] => do return .halted (.returned (some (← I.operand s.env a))) s.env
      | _ => none
    | .param => none
    | .endFunc => none

/-- How a run of so many instructions at most ends, if it does. -/
def run (code : List Instruction) : Nat → MachineState V → Option (Outcome V × Env V)
  | 0, _ => none
  | fuel + 1, s =>
    match I.step code s with
    | none => none
    | some (.halted o e) => some (o, e)
    | some (.running s') => run code fuel s'

def Halts (code : List Instruction) (e : Env V) (o : Outcome V) (e' : Env V) : Prop :=
  ∃ fuel, I.run code fuel ⟨0, e, none⟩ = some (o, e')

variable {I} {code : List Instruction} {s s' : MachineState V} {r : Outcome V × Env V} {k : Nat}

def Reaches (I : Interpretation V) (code : List Instruction) :
    MachineState V → MachineState V → Prop :=
  Relation.ReflTransGen fun s s' => I.step code s = some (.running s')

theorem Reaches.one (h : I.step code s = some (.running s')) : I.Reaches code s s' :=
  Relation.ReflTransGen.single h

theorem Reaches.trans {s'' : MachineState V} (h : I.Reaches code s s')
    (h' : I.Reaches code s' s'') :
    I.Reaches code s s'' :=
  Relation.ReflTransGen.trans h h'

theorem Reaches.step {s'' : MachineState V} (h : I.Reaches code s s')
    (hstep : I.step code s' = some (.running s'')) : I.Reaches code s s'' :=
  Relation.ReflTransGen.tail h hstep

theorem run_of_step (h : I.step code s = some (.running s')) :
    I.run code (k + 1) s = I.run code k s' := by
  rw [run, h]

theorem run_mono (h : I.run code k s = some r) : I.run code (k + 1) s = some r := by
  induction k generalizing s with
  | zero => cases h
  | succ k ih =>
    rw [run] at h ⊢
    cases hs : I.step code s with
    | none => simp [hs] at h
    | some t =>
      cases t with
      | halted o e => simpa [hs] using h
      | running s' =>
        simp only [hs] at h ⊢
        exact ih h

theorem run_unique {k' : Nat} {r' : Outcome V × Env V} (h : I.run code k s = some r)
    (h' : I.run code k' s = some r') : r = r' := by
  have hmono {k : Nat} {r : Outcome V × Env V} (d : Nat) (h : I.run code k s = some r) :
      I.run code (k + d) s = some r := by
    induction d with
    | zero => exact h
    | succ d ih => exact run_mono ih
  have hk := hmono k' h
  rw [Nat.add_comm, hmono k h'] at hk
  cases hk
  rfl

/-- A run that passes a state goes on from there in no more instructions. -/
theorem run_from_reached (hs : I.Reaches code s s') (h : I.run code k s = some r) :
    ∃ j ≤ k, I.run code j s' = some r := by
  induction hs using Relation.ReflTransGen.head_induction_on generalizing k with
  | refl => exact ⟨k, le_rfl, h⟩
  | head hstep _ ih =>
    cases k with
    | zero => cases h
    | succ k =>
      rw [run_of_step hstep] at h
      obtain ⟨j, hj, hr⟩ := ih h
      exact ⟨j, by omega, hr⟩

theorem run_of_reached (hs : I.Reaches code s s') (h : I.run code k s' = some r) :
    ∃ j, I.run code j s = some r := by
  induction hs using Relation.ReflTransGen.head_induction_on with
  | refl => exact ⟨k, h⟩
  | head hstep _ ih =>
    obtain ⟨j, hj⟩ := ih
    exact ⟨j + 1, (run_of_step hstep).trans hj⟩

variable {p d : Nat} {e : Env V} {t : Option V} {v w : V} {a b : Operand} {x : String}
  {loc : Location}

theorem step_end (h : code[p]? = none) : I.step code ⟨p, e, t⟩ = some (.halted .normal e) := by
  simp [step, h]

theorem step_mark (h : code[p]? = some (.mark x)) :
    I.step code ⟨p, e, t⟩ = some (.running ⟨p + 1, e, none⟩) := by
  simp [step, h, MachineState.next]

theorem step_decl (h : code[p]? = some (.decl x loc)) :
    I.step code ⟨p, e, t⟩ = some (.running ⟨p + 1, I.declare x e, none⟩) := by
  simp [step, h, Instruction.decl, MachineState.next]

theorem step_mov (h : code[p]? = some (.mov x a loc)) (ha : I.operand e a = some v) :
    I.step code ⟨p, e, t⟩ = some (.running ⟨p + 1, Function.update e x v, none⟩) := by
  simp [step, h, Instruction.mov, MachineState.next, ha]

theorem step_binary {op : BinaryOp} (h : code[p]? = some (.binary op x a b loc))
    (ha : I.operand e a = some v) (hb : I.operand e b = some w) :
    I.step code ⟨p, e, t⟩ =
      some (.running ⟨p + 1, Function.update e x (I.operation op v w), none⟩) := by
  simp [step, h, Instruction.binary, MachineState.next, ha, hb]

theorem step_cmp (h : code[p]? = some (.cmp a loc)) (ha : I.operand e a = some v) :
    I.step code ⟨p, e, t⟩ = some (.running ⟨p + 1, e, some v⟩) := by
  simp [step, h, Instruction.cmp, ha]

theorem step_jump (h : code[p]? = some (.jump x loc)) (hx : landing code (some x) = some k) :
    I.step code ⟨p, e, t⟩ = some (.running ⟨k, e, none⟩) := by
  simp [step, h, MachineState.jump, hx]

theorem step_jumpIfFalse (h : code[p]? = some (.jumpIfFalse x loc))
    (hx : landing code (some x) = some k) :
    I.step code ⟨p, e, some v⟩ =
      some (.running ⟨if I.truthy v then p + 1 else k, e, none⟩) := by
  cases hv : I.truthy v <;> simp [step, h, MachineState.jump, MachineState.next, hx, hv]

theorem step_jumpIfTrue (h : code[p]? = some (.jumpIfTrue x loc))
    (hx : landing code (some x) = some k) :
    I.step code ⟨p, e, some v⟩ =
      some (.running ⟨if I.truthy v then k else p + 1, e, none⟩) := by
  cases hv : I.truthy v <;> simp [step, h, MachineState.jump, MachineState.next, hx, hv]

theorem step_func (h : code[p]? = some (.func x loc))
    (hd : matchingEnd 0 (code.drop (p + 1)) = some d) :
    I.step code ⟨p, e, t⟩ = some (.running ⟨p + 1 + d + 1, e, none⟩) := by
  simp [step, h, hd]

theorem step_ret (h : code[p]? = some (.ret none loc)) :
    I.step code ⟨p, e, t⟩ = some (.halted (.returned none) e) := by
  simp [step, h, Instruction.ret]

theorem step_ret_value (h : code[p]? = some (.ret (some a) loc)) (ha : I.operand e a = some v) :
    I.step code ⟨p, e, t⟩ = some (.halted (.returned (some v)) e) := by
  simp [step, h, Instruction.ret, ha]

end Interpretation

/-- A jump goes to the one place where its label is defined. -/
theorem landing_eq {code : List Instruction} {label : Option String} {k : Nat}
    (once : ∀ j m, Streams.DefinesAt code j label → Streams.DefinesAt code m label → j = m)
    (h : Streams.DefinesAt code k label) : landing code label = some k := by
  have hdef := h
  obtain ⟨i, hi, hop, hlabel⟩ := h
  obtain ⟨hlt, hget⟩ := List.getElem?_eq_some_iff.mp hi
  refine List.findIdx?_eq_some_iff_getElem.mpr ⟨hlt, by simp [hget, hop, hlabel], ?_⟩
  intro j hj hearlier
  simp only [decide_eq_true_eq] at hearlier
  have := once j k ⟨_, List.getElem?_eq_getElem (by omega), hearlier.1, hearlier.2⟩ hdef
  omega

def Placed (program : List Instruction) (p : Nat) (code : List Instruction) : Prop :=
  ∀ k i, code[k]? = some i → program[p + k]? = some i

namespace Placed

variable {program code rest : List Instruction} {i : Instruction} {p : Nat}

theorem whole (program : List Instruction) : Placed program 0 program := by
  intro k i h
  simpa using h

@[simp] theorem cons_iff :
    Placed program p (i :: code) ↔ program[p]? = some i ∧ Placed program (p + 1) code := by
  constructor
  · intro h
    refine ⟨by simpa using h 0 i rfl, fun k j hj => ?_⟩
    rw [Nat.add_assoc, Nat.add_comm 1]
    exact h (k + 1) j (by simpa using hj)
  · rintro ⟨hi, hcode⟩ k j hj
    cases k with
    | zero => simpa [← hj] using hi
    | succ k =>
      rw [Nat.add_comm k, ← Nat.add_assoc]
      exact hcode k j (by simpa using hj)

@[simp] theorem append_iff :
    Placed program p (code ++ rest) ↔
      Placed program p code ∧ Placed program (p + code.length) rest := by
  induction code generalizing p with
  | nil => simp [Placed]
  | cons i code ih =>
    rw [List.cons_append, cons_iff, ih, cons_iff, List.length_cons, and_assoc, Nat.add_right_comm,
      Nat.add_assoc]

end Placed
end Sil
