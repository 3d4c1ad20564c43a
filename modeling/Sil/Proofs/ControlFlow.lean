import Mathlib
import Sil.Emission.Step
import Sil.Proofs.Basic

/-!
The control part of an emission as a machine of its own: which blocks are open, which operand was
tested and which labels were met. `Moves` says everything that one instruction can do to it.
-/
namespace Sil

def Operand.isPlain : Operand → Bool
  | .const .. => true
  | .var (.text _) => true
  | .temp (.text _) => true
  | _ => false

namespace Instruction

def isComplete (i : Instruction) : Bool :=
  i.operands.all Operand.isPlain &&
  match i.opcode with
  | .decl | .func | .param => i.name.isSome
  | .mov => i.dest.isSome && i.operands.length == 1
  | .binary _ => i.dest.isSome && i.operands.length == 2
  | .cmp => i.operands.length == 1
  | .jumpIfFalse | .jumpIfTrue | .jump | .label => i.label.isSome
  | .ret => i.operands.length ≤ 1
  | .endFunc => true

def isSpellable (i : Instruction) : Bool := i.operands.all Operand.isSpellable

@[simp] theorem decl_isComplete (name : String) (loc : Location) : (decl name loc).isComplete := rfl

@[simp] theorem mov_isComplete (dest : String) (source : Operand) (loc : Location) :
    (mov dest source loc).isComplete = source.isPlain := by
  simp [isComplete, mov]

@[simp] theorem binary_isComplete (op : BinaryOp) (dest : String) (left right : Operand)
    (loc : Location) :
    (binary op dest left right loc).isComplete = (left.isPlain && right.isPlain) := by
  simp [isComplete, binary]

@[simp] theorem cmp_isComplete (source : Operand) (loc : Location) :
    (cmp source loc).isComplete = source.isPlain := by
  simp [isComplete, cmp]

@[simp] theorem jumpIfFalse_isComplete (label : String) (loc : Location) :
    (jumpIfFalse label loc).isComplete := rfl

@[simp] theorem jumpIfTrue_isComplete (label : String) (loc : Location) :
    (jumpIfTrue label loc).isComplete := rfl

@[simp] theorem jump_isComplete (label : String) (loc : Location) :
    (jump label loc).isComplete := rfl

@[simp] theorem mark_isComplete (label : String) : (mark label).isComplete := rfl

@[simp] theorem func_isComplete (name : String) (loc : Location) : (func name loc).isComplete := rfl

@[simp] theorem param_isComplete (name : String) (loc : Location) :
    (param name loc).isComplete := rfl

@[simp] theorem endFunc_isComplete (loc : Location) : (endFunc loc).isComplete := rfl

@[simp] theorem ret_isComplete (value : Option Operand) (loc : Location) :
    (ret value loc).isComplete = value.all Operand.isPlain := by
  cases value <;> simp [isComplete, ret]

end Instruction

/-- The open blocks with the labels that close them, the innermost first; the operand that waits for
a conditional jump; the function whose parameters are being listed; the labels met, and those that
jumps still wait for. -/
structure Control where
  blocks : List (BlockKind × Option String) := []
  tested : Option Operand := none
  header : Option Header := none
  defined : List (Option String) := []
  awaited : List (Option String) := []

namespace Control
open Emission

def enter (c : Control) : Control :=
  match c.header with
  | none => c
  | some header => { c with header := none, blocks := (.function, header.name) :: c.blocks }

def await (c : Control) (label : Option String) : Control :=
  { c with
    awaited :=
      if c.defined.contains label || c.awaited.contains label then c.awaited
      else c.awaited ++ [label] }

def closes (c : Control) (label : Option String) : Bool := c.blocks.head? == some (.branch, label)

def close (c : Control) : Control := { c with blocks := c.blocks.tail }

def define (c : Control) (label : Option String) : Control :=
  { c with defined := c.defined ++ [label], awaited := c.awaited.filter (· != label) }

/-- Whether a jump in front of an instruction closes the innermost block. -/
def closesBefore (c : Control) : Option Instruction → Bool
  | some next => next.opcode == .label && c.closes next.label
  | none => false

def branch (c : Control) (label : Option String) : Except Error Control :=
  match c.tested with
  | none => flowError label .jumpWithoutTest
  | some test =>
    if c.defined.contains label then flowError label .backwardBranch
    else do
      requireSpelling test
      return { c.await label with tested := none, blocks := (.branch, label) :: c.blocks }

/-- A label closes the innermost block if it is that block's, and must be no other open block's. -/
def meet (c : Control) (label : Option String) : Except Error Control :=
  if c.defined.contains label then flowError label .labelTwice
  else if c.closes label then .ok (c.close.define label)
  else if c.blocks.contains (.branch, label) then flowError label .labelCrossesBlock
  else .ok (c.define label)

def leave (c : Control) : Except Error Control :=
  match c.blocks with
  | [] => .error (.malformedFlow "endfunc" .noOpenFunction)
  | (.function, _) :: _ => .ok c.close
  | (.branch, label) :: _ => flowError label .blockInFunctionEnd

def perform (upcoming : Option Instruction) (c : Control) (i : Instruction) :
    Except Error Control :=
  match i.opcode with
  | .decl => .ok c
  | .mov | .binary _ | .ret => do
    i.operands.forM requireSpelling
    return c
  | .cmp => .ok { c with tested := i.operands.head? }
  | .jumpIfFalse | .jumpIfTrue => c.branch i.label
  | .jump =>
    let c := c.await i.label
    .ok (if c.closesBefore upcoming then c.close else c)
  | .label => c.meet i.label
  | .func =>
    if c.blocks.any (·.1 == .function) then flowError i.name .functionInFunction
    else .ok { c with header := some { name := i.name } }
  | .param =>
    match c.header with
    | none => flowError i.name .strayParameter
    | some header =>
      .ok { c with header := some { header with params := header.params ++ [i.name] } }
  | .endFunc => c.leave

/-- A tested operand must be used by the very next instruction. -/
def checkTested (c : Control) (i : Instruction) : Except Error Unit :=
  match c.tested with
  | none => .ok ()
  | some test =>
    if i.opcode.isConditionalJump then .ok ()
    else if test.isWritable then .error (.malformedFlow test.text .testNotUsed)
    else .error (.fault (.digitLimit none))

def step (upcoming : Option Instruction) (c : Control) (i : Instruction) :
    Except Error Control := do
  let c := if i.opcode = .param then c else c.enter
  c.checkTested i
  c.perform upcoming i

def run : Control → List Instruction → Except Error Control
  | c, [] => .ok c
  | c, i :: rest => do
    let c ← c.step rest.head? i
    c.run rest

def finish (c : Control) : Except Error Control :=
  match c.enter.blocks with
  | (kind, label) :: _ => flowError label (.neverClosed kind)
  | [] =>
    if c.enter.awaited.isEmpty then .ok c.enter
    else do flowError (← leastLabel c.enter.awaited) .undefinedLabel

def accept (is : List Instruction) : Except Error Control := do
  (← run {} is).finish

@[simp] theorem enter_tested (c : Control) : c.enter.tested = c.tested := by
  unfold enter; split <;> rfl

@[simp] theorem enter_defined (c : Control) : c.enter.defined = c.defined := by
  unfold enter; split <;> rfl

@[simp] theorem enter_awaited (c : Control) : c.enter.awaited = c.awaited := by
  unfold enter; split <;> rfl

@[simp] theorem enter_header (c : Control) : c.enter.header = none := by
  unfold enter
  split
  · assumption
  · rfl

@[simp] theorem enter_enter (c : Control) : c.enter.enter = c.enter := by
  rw [enter, enter_header]

@[simp] theorem await_closesBefore (c : Control) (label : Option String)
    (upcoming : Option Instruction) :
    (c.await label).closesBefore upcoming = c.closesBefore upcoming := by
  cases upcoming <;> rfl

/-- Everything that one instruction can do to the control part. -/
inductive Moves (upcoming : Option Instruction) (c : Control) (i : Instruction) : Control → Prop
  | plain
      (ho : i.opcode = .decl ∨ i.opcode = .mov ∨ (∃ op, i.opcode = .binary op) ∨ i.opcode = .ret)
      (ht : c.tested = none) : Moves upcoming c i c.enter
  | cmp (ho : i.opcode = .cmp) (ht : c.tested = none) :
      Moves upcoming c i { c.enter with tested := i.operands.head? }
  | branch {test : Operand} (ho : i.opcode.isConditionalJump) (ht : c.tested = some test)
      (hd : i.label ∉ c.defined) :
      Moves upcoming c i { c.enter.await i.label with
        tested := none, blocks := (.branch, i.label) :: c.enter.blocks }
  | jump (ho : i.opcode = .jump) (ht : c.tested = none)
      (hb : c.enter.closesBefore upcoming = false) :
      Moves upcoming c i (c.enter.await i.label)
  | jumpClosing (ho : i.opcode = .jump) (ht : c.tested = none)
      (hb : c.enter.closesBefore upcoming = true) :
      Moves upcoming c i (c.enter.await i.label).close
  | label (ho : i.opcode = .label) (ht : c.tested = none) (hd : i.label ∉ c.defined)
      (hb : (.branch, i.label) ∉ c.enter.blocks) : Moves upcoming c i (c.enter.define i.label)
  | labelClosing {rest : List (BlockKind × Option String)} (ho : i.opcode = .label)
      (ht : c.tested = none) (hd : i.label ∉ c.defined)
      (hb : c.enter.blocks = (.branch, i.label) :: rest) :
      Moves upcoming c i (c.enter.close.define i.label)
  | func (ho : i.opcode = .func) (ht : c.tested = none) (hb : ∀ b ∈ c.enter.blocks, b.1 = .branch) :
      Moves upcoming c i { c.enter with header := some { name := i.name } }
  | param {header : Header} (ho : i.opcode = .param) (ht : c.tested = none)
      (hh : c.header = some header) :
      Moves upcoming c i
        { c with header := some { header with params := header.params ++ [i.name] } }
  | endFunc {name : Option String} {rest : List (BlockKind × Option String)}
      (ho : i.opcode = .endFunc) (ht : c.tested = none)
      (hb : c.enter.blocks = (.function, name) :: rest) : Moves upcoming c i c.enter.close

/-- The operands that an instruction needs to be written out. -/
def spelled (c : Control) (i : Instruction) : List Operand :=
  match i.opcode with
  | .mov | .binary _ | .ret => i.operands
  | .jumpIfFalse | .jumpIfTrue => c.tested.toList
  | _ => []

theorem forM_requireSpelling (os : List Operand) : os.forM requireSpelling =
    if os.all Operand.isSpellable then .ok () else .error (.fault (.digitLimit none)) := by
  induction os with
  | nil => rfl
  | cons o rest ih =>
    change (requireSpelling o >>= fun _ => rest.forM requireSpelling) = _
    rw [ih]
    cases h : o.isSpellable <;> simp [requireSpelling, h, bind, Except.bind]

theorem checkTested_eq_ok {c : Control} {i : Instruction} {u : Unit} :
    c.checkTested i = .ok u ↔ c.tested = none ∨ i.opcode.isConditionalJump = true := by
  unfold checkTested
  cases c.tested with
  | none => simp
  | some test =>
    cases i.opcode.isConditionalJump with
    | true => simp
    | false =>
      simp only [Bool.false_eq_true, ↓reduceIte, reduceCtorEq, or_false, iff_false]
      split <;> simp

private theorem moves_of_branch {upcoming : Option Instruction} {c c' : Control} {i : Instruction}
    (ho : i.opcode.isConditionalJump) (h : c.enter.branch i.label = .ok c') :
    Moves upcoming c i c' := by
  unfold branch at h
  split at h
  · cases h
  · rename_i test htest
    split at h
    · cases h
    · rename_i hd
      obtain ⟨u, -, h⟩ := bind_eq_ok.mp h
      cases h
      rw [enter_tested] at htest
      exact .branch ho htest (by simpa using hd)

private theorem moves_of_meet {upcoming : Option Instruction} {c c' : Control} {i : Instruction}
    (ho : i.opcode = .label) (ht : c.tested = none) (h : c.enter.meet i.label = .ok c') :
    Moves upcoming c i c' := by
  unfold meet at h
  split at h
  · cases h
  · rename_i hd
    have hd : i.label ∉ c.defined := by simpa using hd
    split at h
    · rename_i hclose
      cases h
      simp only [closes, beq_iff_eq] at hclose
      obtain ⟨rest, hb⟩ := List.head?_eq_some_iff.mp hclose
      exact .labelClosing ho ht hd hb
    · split at h
      · cases h
      · rename_i hb
        cases h
        exact .label ho ht hd (by simpa using hb)

theorem moves_of_step {upcoming : Option Instruction} {c c' : Control} {i : Instruction}
    (h : c.step upcoming i = .ok c') : Moves upcoming c i c' := by
  unfold step at h
  obtain ⟨u, hcheck, h⟩ := bind_eq_ok.mp h
  have ht (hj : i.opcode.isConditionalJump = false) : c.tested = none := by
    have hor := checkTested_eq_ok.mp hcheck
    split at hor <;> simpa [hj] using hor
  unfold perform at h
  cases hop : i.opcode with
  | decl =>
    simp only [hop, reduceCtorEq, ↓reduceIte, Except.ok.injEq] at h
    exact h ▸ .plain (.inl hop) (ht (by rw [hop]; rfl))
  | mov =>
    simp only [hop, reduceCtorEq, ↓reduceIte] at h
    obtain ⟨u, -, h⟩ := bind_eq_ok.mp h
    cases h
    exact .plain (.inr (.inl hop)) (ht (by rw [hop]; rfl))
  | binary op =>
    simp only [hop, reduceCtorEq, ↓reduceIte] at h
    obtain ⟨u, -, h⟩ := bind_eq_ok.mp h
    cases h
    exact .plain (.inr (.inr (.inl ⟨op, hop⟩))) (ht (by rw [hop]; rfl))
  | ret =>
    simp only [hop, reduceCtorEq, ↓reduceIte] at h
    obtain ⟨u, -, h⟩ := bind_eq_ok.mp h
    cases h
    exact .plain (.inr (.inr (.inr hop))) (ht (by rw [hop]; rfl))
  | cmp =>
    simp only [hop, reduceCtorEq, ↓reduceIte, Except.ok.injEq] at h
    exact h ▸ .cmp hop (ht (by rw [hop]; rfl))
  | jumpIfFalse | jumpIfTrue =>
    simp only [hop, reduceCtorEq, ↓reduceIte] at h
    exact moves_of_branch (by rw [hop]; rfl) h
  | jump =>
    simp only [hop, reduceCtorEq, ↓reduceIte, await_closesBefore, Except.ok.injEq] at h
    cases hb : c.enter.closesBefore upcoming with
    | false =>
      simp only [hb, Bool.false_eq_true, ↓reduceIte] at h
      exact h ▸ .jump hop (ht (by rw [hop]; rfl)) hb
    | true =>
      simp only [hb, ↓reduceIte] at h
      exact h ▸ .jumpClosing hop (ht (by rw [hop]; rfl)) hb
  | label =>
    simp only [hop, reduceCtorEq, ↓reduceIte] at h
    exact moves_of_meet hop (ht (by rw [hop]; rfl)) h
  | func =>
    simp only [hop, reduceCtorEq, ↓reduceIte] at h
    split at h
    · cases h
    · rename_i hb
      cases h
      refine .func hop (ht (by rw [hop]; rfl)) fun b hmem => ?_
      simp only [List.any_eq_true, not_exists, not_and, beq_iff_eq] at hb
      cases hk : b.1 with
      | branch => rfl
      | function => exact absurd hk (hb b hmem)
  | param =>
    simp only [hop, ↓reduceIte] at h
    split at h
    · cases h
    · cases h
      exact .param hop (ht (by rw [hop]; rfl)) ‹_›
  | endFunc =>
    simp only [hop, reduceCtorEq, ↓reduceIte, leave] at h
    split at h
    · cases h
    · cases h
      exact .endFunc hop (ht (by rw [hop]; rfl)) ‹_›
    · cases h

private theorem step_eq_perform {upcoming : Option Instruction} {c : Control} {i : Instruction}
    (h : c.tested = none ∨ i.opcode.isConditionalJump = true) :
    c.step upcoming i = (if i.opcode = .param then c else c.enter).perform upcoming i := by
  have hcheck : (if i.opcode = .param then c else c.enter).checkTested i = .ok () := by
    rw [checkTested_eq_ok]
    split <;> simpa using h
  unfold step
  dsimp only
  rw [hcheck]
  rfl

/-- A move that the control part allows is made, unless an operand cannot be spelled. -/
theorem step_of_moves {upcoming : Option Instruction} {c c' : Control} {i : Instruction}
    (h : Moves upcoming c i c') : c.step upcoming i =
      if (c.spelled i).all Operand.isSpellable then .ok c'
      else .error (.fault (.digitLimit none)) := by
  cases h with
  | plain ho ht =>
    rw [step_eq_perform (.inl ht)]
    obtain ho | ho | ⟨op, ho⟩ | ho := ho
    · simp [ho, perform, spelled]
    all_goals
      simp only [ho, perform, spelled, forM_requireSpelling]
      split <;> rfl
  | cmp ho ht =>
    rw [step_eq_perform (.inl ht)]
    simp [ho, perform, spelled]
  | branch ho ht hd =>
    have hperform : c.enter.perform upcoming i = c.enter.branch i.label := by
      unfold perform
      cases hop : i.opcode <;> simp_all [Opcode.isConditionalJump]
    have hspelled : c.spelled i = c.tested.toList := by
      unfold spelled
      cases hop : i.opcode <;> simp_all [Opcode.isConditionalJump]
    have hp : i.opcode ≠ .param := by
      intro hp
      simp [hp, Opcode.isConditionalJump] at ho
    rw [step_eq_perform (.inr ho), if_neg hp, hperform, hspelled]
    simp only [branch, enter_tested, ht, enter_defined, List.contains_eq_mem, hd, decide_false,
      Bool.false_eq_true, ↓reduceIte, requireSpelling, Option.toList_some, List.all_cons,
      List.all_nil, Bool.and_true]
    split <;> rfl
  | jump ho ht hb =>
    rw [step_eq_perform (.inl ht)]
    simp [ho, perform, spelled, hb]
  | jumpClosing ho ht hb =>
    rw [step_eq_perform (.inl ht)]
    simp [ho, perform, spelled, hb]
  | label ho ht hd hb =>
    have hclose : c.enter.closes i.label = false := by
      simp only [closes, beq_eq_false_iff_ne]
      exact fun h => hb (List.mem_of_head? h)
    rw [step_eq_perform (.inl ht)]
    simp [ho, perform, spelled, meet, hd, hb, hclose]
  | labelClosing ho ht hd hb =>
    rw [step_eq_perform (.inl ht)]
    simp [ho, perform, spelled, meet, hd, hb, closes]
  | func ho ht hb =>
    have hany : c.enter.blocks.any (·.1 == .function) = false := by
      simp only [List.any_eq_false, beq_iff_eq]
      intro b hmem hk
      simp [hb b hmem] at hk
    rw [step_eq_perform (.inl ht)]
    simp [ho, perform, spelled, hany]
  | param ho ht hh =>
    rw [step_eq_perform (.inl ht)]
    simp [ho, perform, spelled, hh]
  | endFunc ho ht hb =>
    rw [step_eq_perform (.inl ht)]
    simp [ho, perform, spelled, leave, hb]

/-- The moves of a stream, with the rest of the stream that follows it in view. -/
inductive Trace (rest : List Instruction) : Control → List Instruction → Control → Prop
  | nil (c : Control) : Trace rest c [] c
  | cons {c c₁ c₂ : Control} {i : Instruction} {is : List Instruction}
      (move : Moves (is ++ rest).head? c i c₁) (trace : Trace rest c₁ is c₂) :
      Trace rest c (i :: is) c₂

theorem Trace.append {rest xs ys : List Instruction} {c c₁ c₂ : Control}
    (hx : Trace (ys ++ rest) c xs c₁) (hy : Trace rest c₁ ys c₂) : Trace rest c (xs ++ ys) c₂ := by
  induction hx with
  | nil => exact hy
  | cons move _ ih =>
    rw [← List.append_assoc] at move
    exact .cons move (ih hy)

theorem trace_of_run {c c' : Control} {is : List Instruction} (h : c.run is = .ok c') :
    Trace [] c is c' := by
  induction is generalizing c with
  | nil =>
    cases h
    exact .nil _
  | cons i is ih =>
    obtain ⟨c₁, hstep, h⟩ := bind_eq_ok.mp h
    refine .cons ?_ (ih h)
    rw [List.append_nil]
    exact moves_of_step hstep

/-- A trace is what the machine does, unless an operand cannot be spelled. -/
theorem run_of_trace {c c' : Control} {is : List Instruction} (h : Trace [] c is c') :
    c.run is = .ok c' ∨ c.run is = .error (.fault (.digitLimit none)) := by
  induction h with
  | nil => exact .inl rfl
  | cons move _ ih =>
    rw [List.append_nil] at move
    rw [run, step_of_moves move]
    split
    · exact ih
    · exact .inr rfl

private theorem moves_tested {upcoming : Option Instruction} {c c' : Control} {i : Instruction}
    (h : Moves upcoming c i c') : c'.tested = none ∨ c'.tested = i.operands.head? := by
  cases h with
  | cmp => exact .inr rfl
  | branch => exact .inl rfl
  | plain _ ht | jump _ ht | jumpClosing _ ht | label _ ht | labelClosing _ ht | func _ ht
    | endFunc _ ht => exact .inl ((enter_tested c).trans ht)
  | param _ ht => exact .inl ht

private theorem spelled_of_isSpellable {c : Control} {i : Instruction} (hi : i.isSpellable)
    (ht : c.tested.all Operand.isSpellable) : (c.spelled i).all Operand.isSpellable := by
  have htest : c.tested.toList.all Operand.isSpellable := by
    cases hc : c.tested <;> simp_all
  unfold spelled
  split
  · exact hi
  · exact hi
  · exact hi
  · exact htest
  · exact htest
  · rfl

theorem tested_spellable {upcoming : Option Instruction} {c c' : Control} {i : Instruction}
    (h : Moves upcoming c i c') (hi : i.isSpellable) : c'.tested.all Operand.isSpellable := by
  obtain hnone | hhead := moves_tested h
  · rw [hnone]
    rfl
  · rw [hhead]
    cases ho : i.operands <;> simp_all [Instruction.isSpellable]

theorem run_of_trace_spellable {c c' : Control} {is : List Instruction} (h : Trace [] c is c')
    (hi : ∀ i ∈ is, i.isSpellable) (ht : c.tested.all Operand.isSpellable) : c.run is = .ok c' := by
  induction h with
  | nil => rfl
  | @cons c c₁ c₂ i is move _ ih =>
    rw [List.append_nil] at move
    have hfirst : i.isSpellable := hi i List.mem_cons_self
    have htested := tested_spellable move hfirst
    rw [run, step_of_moves move, if_pos (spelled_of_isSpellable hfirst ht)]
    exact ih (fun j hj => hi j (List.mem_cons_of_mem i hj)) htested

end Control

end Sil
