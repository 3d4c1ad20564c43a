import Mathlib
import Sil.Proofs.ControlFlow

/-!
The control part of an emission state. An instruction with the fields that its operation needs
changes it in a way that depends on nothing else, in both target languages alike. So the control
machine decides whether a stream is emitted at all.
-/
namespace Sil

def EmissionState.control (s : EmissionState) : Control where
  blocks := s.blocks.map fun block => (block.kind, block.label)
  tested := s.tested
  header := s.header
  defined := s.definedLabels
  awaited := s.forwardTargets

namespace EmissionState

@[simp] theorem control_write (s : EmissionState) (content : Content) :
    (s.write content).control = s.control := rfl

@[simp] theorem control_writeStatement (s : EmissionState) (content : Content) :
    (s.writeStatement content).control = s.control := by
  cases h : s.blocks <;> simp [control, writeStatement, write, markStatement, h]

@[simp] theorem control_noteUse (b : Backend) (s : EmissionState) (n : Name) (type : ValueType) :
    (s.noteUse b n type).control = s.control := by
  unfold noteUse
  split <;> rfl

@[simp] theorem control_openBlock (s : EmissionState) (kind : BlockKind) (label : Option String)
    (opener : Content) : (s.openBlock kind label opener).control =
      { s.control with blocks := (kind, label) :: s.control.blocks } := by
  have h := control_writeStatement s opener
  simp only [control, Control.mk.injEq] at h
  simp [control, openBlock, h]

@[simp] theorem control_closeBlock (b : Backend) (s : EmissionState) :
    (s.closeBlock b).control = s.control.close := by
  unfold closeBlock
  split
  · rename_i h
    simp [control, Control.close, h]
  · rename_i block rest h
    split <;> split <;> simp [control, Control.close, write, h]

theorem closesInnermost_eq (s : EmissionState) (label : Option String) :
    s.closesInnermost label = s.control.closes label := by
  unfold closesInnermost Control.closes control
  cases s.blocks <;> rfl

theorem any_branch_eq (s : EmissionState) (label : Option String) :
    (s.blocks.any fun block => block.kind == .branch && block.label == label) =
      s.control.blocks.contains (.branch, label) := by
  rw [Bool.eq_iff_iff]
  simp [control]

theorem inFunction_eq (s : EmissionState) :
    s.inFunction = s.control.blocks.any (·.1 == .function) := by
  simp [inFunction, control, Function.comp_def]

end EmissionState

namespace Emission
open EmissionState

/-- Reading plain operands always works and leaves the control part alone. -/
theorem noteReads_plain (b : Backend) {operands : List Operand} (h : operands.all Operand.isPlain)
    (s : EmissionState) : ∃ s', noteReads b s operands = .ok s' ∧ s'.control = s.control := by
  induction operands generalizing s with
  | nil => exact ⟨s, rfl, rfl⟩
  | cons o rest ih =>
    simp only [List.all_cons, Bool.and_eq_true] at h
    obtain ⟨ho, hrest⟩ := h
    unfold noteReads
    have hname (name : String) :
        ∃ s', noteReads b (s.noteUse b (.text name) b.defaultType) rest = .ok s' ∧
          s'.control = s.control := by
      obtain ⟨s', hs, hc⟩ := ih hrest (s.noteUse b (.text name) b.defaultType)
      exact ⟨s', hs, by rw [hc, control_noteUse]⟩
    cases o with
    | const value raw => exact ih hrest s
    | var name =>
      cases name with
      | text name => exact hname name
      | _ => cases ho
    | temp name =>
      cases name with
      | text name => exact hname name
      | _ => cases ho

theorem control_assign (b : Backend) {i : Instruction} (h : i.operands.all Operand.isPlain)
    (s : EmissionState) (source : Source) :
    (assign b s i source).map control = .ok s.control := by
  obtain ⟨s', hs, hc⟩ := noteReads_plain b h s
  simp [assign, hs, bind, Except.bind, Except.map, pure, Except.pure, hc]

def HeaderNamed (c : Control) : Prop :=
  ∀ header, c.header = some header → header.params.all Option.isSome

theorem openFunction_named (b : Backend) (s : EmissionState) (h : HeaderNamed s.control) :
    ∃ s', openFunction b s = .ok s' ∧ s'.control = s.control.enter := by
  unfold openFunction Control.enter
  cases hh : s.header with
  | none => exact ⟨s, rfl, by simp [EmissionState.control, hh]⟩
  | some header =>
    have hn : firstNameless? header.params = none := by
      have hall := h header hh
      simp only [List.all_eq_true] at hall
      simp only [firstNameless?, List.findIdx?_eq_none_iff]
      intro p hp
      simpa using hall p hp
    have ho := control_openBlock { s with header := none } .function header.name
      (.openFunction (Name.ofOption header.name) (header.params.map Name.ofOption))
    simp only [hn]
    refine ⟨_, rfl, ?_⟩
    simp only [EmissionState.control, Control.mk.injEq] at ho
    simp [EmissionState.control, hh, ho]

theorem declaredType_ok (name : Option String) {upcoming : Option Instruction}
    (hu : ∀ j, upcoming = some j → j.opcode = .mov → j.operands ≠ []) :
    ∃ type, declaredType name upcoming = .ok type := by
  unfold declaredType
  split
  · exact ⟨_, rfl⟩
  · rename_i next
    split
    · rename_i hm
      simp only [Bool.and_eq_true, decide_eq_true_eq] at hm
      obtain ⟨o, rest, ho⟩ := List.exists_cons_of_ne_nil (hu next rfl hm.1)
      rw [ho]
      cases o <;> exact ⟨_, rfl⟩
    · exact ⟨_, rfl⟩

theorem control_declare (b : Backend) {upcoming : Option Instruction}
    (hu : ∀ j, upcoming = some j → j.opcode = .mov → j.operands ≠ []) (s : EmissionState)
    (i : Instruction) : (declare b upcoming s i).map control = .ok s.control := by
  obtain ⟨type, ht⟩ := declaredType_ok i.name hu
  unfold declare
  cases b with
  | python => simp [pure, Except.pure, Except.map]; rfl
  | cpp =>
    dsimp only
    split
    · rfl
    · simp [ht, bind, Except.bind, pure, Except.pure, Except.map]; rfl

theorem control_branch (s : EmissionState) (i : Instruction) (whenFalse : Bool) :
    (branch s i whenFalse).map EmissionState.control = s.control.branch i.label := by
  unfold branch Control.branch
  cases ht : s.tested with
  | none =>
    have hc : s.control.tested = none := ht
    rw [hc]
    rfl
  | some test =>
    have hc : s.control.tested = some test := ht
    have hd : s.control.defined = s.definedLabels := rfl
    rw [hc, hd]
    dsimp only
    split
    · rfl
    · rename_i hdef
      cases hs : requireSpelling test with
      | error e => rfl
      | ok u =>
        refine congrArg Except.ok ((control_openBlock _ _ _ _).trans ?_)
        simp only [Bool.not_eq_true] at hdef
        simp only [Control.await, EmissionState.control, hdef, Bool.false_or]

theorem control_jump (b : Backend) (upcoming : Option Instruction) (s : EmissionState)
    (i : Instruction) : (jump b upcoming s i).control =
      if (s.control.await i.label).closesBefore upcoming then (s.control.await i.label).close
      else s.control.await i.label := by
  have hawait : (if s.definedLabels.contains i.label || s.forwardTargets.contains i.label then s
      else { s with forwardTargets := s.forwardTargets ++ [i.label] }).control =
        s.control.await i.label := by
    unfold Control.await
    split <;> simp_all [EmissionState.control]
  unfold jump
  rw [← hawait]
  generalize (if s.definedLabels.contains i.label || s.forwardTargets.contains i.label then s
      else { s with forwardTargets := s.forwardTargets ++ [i.label] }) = t
  cases upcoming with
  | none => rfl
  | some next =>
    simp only [Control.closesBefore, closesInnermost_eq, control_write, beq_eq_decide]
    split <;> simp

theorem control_defineLabel (b : Backend) (s : EmissionState) (i : Instruction) :
    (defineLabel b s i).map EmissionState.control = s.control.meet i.label := by
  unfold defineLabel Control.meet
  rw [closesInnermost_eq, any_branch_eq]
  have hd : s.control.defined = s.definedLabels := rfl
  rw [hd]
  dsimp only
  split
  · rfl
  · split
    · have h := control_closeBlock b s
      rw [← h]
      rfl
    · split <;> rfl

theorem control_perform (b : Backend) {upcoming : Option Instruction}
    (hu : ∀ j, upcoming = some j → j.isComplete) (s : EmissionState) {i : Instruction}
    (hi : i.isComplete) :
    (perform b upcoming s i).map EmissionState.control = s.control.perform upcoming i := by
  simp only [Instruction.isComplete, Bool.and_eq_true] at hi
  obtain ⟨hplain, hfields⟩ := hi
  unfold perform Control.perform
  cases hop : i.opcode with
  | decl =>
    refine control_declare b ?_ s i
    intro j hj hmov
    have hj := hu j hj
    simp only [Instruction.isComplete, hmov, Bool.and_eq_true, beq_iff_eq] at hj
    exact List.ne_nil_of_length_eq_add_one hj.2.2
  | mov =>
    simp only [hop, Bool.and_eq_true, beq_iff_eq] at hfields
    obtain ⟨source, ho⟩ := List.length_eq_one_iff.mp hfields.2
    simp only [ho]
    cases hs : requireSpelling source with
    | error e => simp [bind, Except.bind, Except.map, hs]
    | ok u =>
      have h := control_assign b hplain s (.copy source)
      simpa [bind, Except.bind, Except.map, pure, Except.pure, hs] using h
  | binary op =>
    simp only [hop, Bool.and_eq_true, beq_iff_eq] at hfields
    obtain ⟨left, right, ho⟩ := List.length_eq_two.mp hfields.2
    simp only [ho, twoOperands]
    cases hl : requireSpelling left with
    | error e => simp [bind, Except.bind, Except.map, hl]
    | ok u =>
      cases hr : requireSpelling right with
      | error e => simp [bind, Except.bind, Except.map, hl, hr]
      | ok u =>
        have h := control_assign b hplain s (.operation op left right)
        simpa [bind, Except.bind, Except.map, pure, Except.pure, hl, hr] using h
  | cmp =>
    simp only [hop, beq_iff_eq] at hfields
    obtain ⟨test, ho⟩ := List.length_eq_one_iff.mp hfields
    obtain ⟨s', hs, hc⟩ := noteReads_plain b hplain s
    rw [ho] at hs
    simp only [ho, hs, ← hc]
    rfl
  | jumpIfFalse => exact control_branch s i true
  | jumpIfTrue => exact control_branch s i false
  | jump => exact congrArg Except.ok (control_jump b upcoming s i)
  | label => exact control_defineLabel b s i
  | func =>
    rw [← inFunction_eq]
    dsimp only
    split <;> rfl
  | param =>
    have hc : s.control.header = s.header := rfl
    rw [hc]
    cases s.header <;> rfl
  | endFunc =>
    have hc : s.control.blocks = s.blocks.map fun block => (block.kind, block.label) := rfl
    unfold Control.leave
    rw [hc]
    cases hb : s.blocks with
    | nil => rfl
    | cons block rest =>
      cases hk : block.kind with
      | branch => simp [hk, flowError, Except.map]
      | function => simp [hk, Except.map, pure, Except.pure]
  | ret =>
    simp only [hop, decide_eq_true_eq] at hfields
    obtain ⟨s', hs, hc⟩ := noteReads_plain b hplain s
    cases ho : i.operands with
    | nil =>
      rw [ho] at hs
      simp [hs, bind, Except.bind, Except.map, pure, Except.pure, hc]
    | cons value rest =>
      obtain rfl : rest = [] := by simpa [ho] using hfields
      rw [ho] at hs
      cases hv : requireSpelling value <;>
        simp [hs, hv, bind, Except.bind, Except.map, pure, Except.pure, hc]

/-- A step in three parts: the pending function opens, the tested operand is checked, the
instruction is performed. -/
theorem step_eq (b : Backend) (upcoming : Option Instruction) (s : EmissionState)
    (i : Instruction) : step b upcoming s i = do
      let s ← (if i.opcode = .param then .ok s else openFunction b s)
      s.control.checkTested i
      let s ← perform b upcoming s i
      return { s with depthTrace := s.depthTrace ++ [s.depth] } := by
  have hnone {t : EmissionState} (ht : t.tested = none) : t.control.checkTested i = .ok () := by
    simp [Control.checkTested, EmissionState.control, ht]
  have hsome {t : EmissionState} {test : Operand} (ht : t.tested = some test) :
      t.control.checkTested i =
        if i.opcode.isConditionalJump then .ok ()
        else if test.isWritable then .error (.malformedFlow test.text .testNotUsed)
        else .error (.fault (.digitLimit none)) := by
    simp [Control.checkTested, EmissionState.control, ht]
  unfold step
  by_cases hp : i.opcode = .param
  · simp only [hp, ↓reduceIte, bind, Except.bind, pure, Except.pure]
    cases ht : s.tested with
    | none => rw [hnone ht]
    | some test =>
      rw [hsome ht, hp]
      by_cases hw : test.isWritable <;> simp [Opcode.isConditionalJump, hw] <;> rfl
  · simp only [hp, ↓reduceIte]
    cases openFunction b s with
    | error e => rfl
    | ok t =>
      simp only [bind, Except.bind, pure, Except.pure]
      cases ht : t.tested with
      | none => rw [hnone ht]
      | some test =>
        rw [hsome ht]
        by_cases hj : i.opcode.isConditionalJump <;> by_cases hw : test.isWritable <;>
          simp [hj, hw] <;> rfl

theorem control_step (b : Backend) {upcoming : Option Instruction}
    (hu : ∀ j, upcoming = some j → j.isComplete) {s : EmissionState} (hs : HeaderNamed s.control)
    {i : Instruction} (hi : i.isComplete) :
    (step b upcoming s i).map EmissionState.control = s.control.step upcoming i := by
  obtain ⟨t, ht, hc⟩ : ∃ t, (if i.opcode = .param then .ok s else openFunction b s) = .ok t ∧
      t.control = if i.opcode = .param then s.control else s.control.enter := by
    by_cases hp : i.opcode = .param
    · exact ⟨s, by simp [hp], by simp [hp]⟩
    · obtain ⟨t, ht, hc⟩ := openFunction_named b s hs
      exact ⟨t, by simp [hp, ht], by simp [hp, hc]⟩
  have hperform := control_perform b hu t hi
  rw [step_eq, ht]
  unfold Control.step
  rw [← hc]
  dsimp only [bind, Except.bind]
  rw [← hperform]
  cases t.control.checkTested i with
  | error e => rfl
  | ok u => cases perform b upcoming t i <;> rfl

theorem headerNamed_of_moves {upcoming : Option Instruction} {c c' : Control} {i : Instruction}
    (h : Control.Moves upcoming c i c') (hc : HeaderNamed c) (hi : i.isComplete) :
    HeaderNamed c' := by
  intro header hh
  cases h with
  | func ho ht hb =>
    cases hh
    rfl
  | @param old ho ht hold =>
    simp only [Instruction.isComplete, ho, Bool.and_eq_true] at hi
    have hp := hc old hold
    cases hh
    simp [hp, hi.2]
  | _ => simp [Control.await, Control.close, Control.define] at hh

theorem control_run (b : Backend) {is : List Instruction} (hi : ∀ i ∈ is, i.isComplete)
    {s : EmissionState} (hs : HeaderNamed s.control) :
    (run b s is).map EmissionState.control = s.control.run is ∧
      ∀ s', run b s is = .ok s' → HeaderNamed s'.control := by
  induction is generalizing s with
  | nil =>
    refine ⟨rfl, ?_⟩
    rintro s' h
    cases h
    exact hs
  | cons i rest ih =>
    have hu : ∀ j, rest.head? = some j → j.isComplete :=
      fun j hj => hi j (List.mem_cons_of_mem i (List.mem_of_head? hj))
    have hstep := control_step b hu hs (hi i List.mem_cons_self)
    unfold run Control.run
    cases h : step b rest.head? s i with
    | error e =>
      rw [h] at hstep
      simp only [Except.map] at hstep
      simp [← hstep, bind, Except.bind, Except.map]
    | ok t =>
      rw [h] at hstep
      simp only [Except.map] at hstep
      have hm := Control.moves_of_step hstep.symm
      have ht := headerNamed_of_moves hm hs (hi i List.mem_cons_self)
      simpa [← hstep, bind, Except.bind] using
        ih (fun j hj => hi j (List.mem_cons_of_mem i hj)) ht

theorem control_finish (b : Backend) {s : EmissionState} (hs : HeaderNamed s.control) :
    (finish b s).map EmissionState.control = s.control.finish := by
  obtain ⟨t, ht, hc⟩ := openFunction_named b s hs
  unfold finish Control.finish
  rw [ht, ← hc]
  have hb : t.control.blocks = t.blocks.map fun block => (block.kind, block.label) := rfl
  have ha : t.control.awaited = t.forwardTargets := rfl
  simp only [bind, Except.bind, hb, ha]
  cases t.blocks with
  | cons block rest => rfl
  | nil =>
    dsimp only [List.map_nil]
    split
    · rfl
    · cases leastLabel t.forwardTargets <;> rfl

/-- Emission of complete instructions is decided by their control flow, in both target languages. -/
theorem control_emit (b : Backend) {is : List Instruction} (hi : ∀ i ∈ is, i.isComplete) :
    (emit b is).map EmissionState.control = Control.accept is := by
  have hn : HeaderNamed (initial b).control := by
    intro header hh
    cases hh
  obtain ⟨hrun, hnamed⟩ := control_run b hi hn
  have hinit : (initial b).control = {} := rfl
  unfold emit Control.accept
  rw [← hinit, ← hrun]
  cases h : run b (initial b) is with
  | error e => rfl
  | ok s => exact control_finish b (hnamed s h)

end Emission

end Sil
