import Mathlib
import Sil.Proofs.EmissionControl
import Sil.Proofs.StreamAcceptance

/-!
The emission takes exactly the well structured streams, in both target languages. A stream with
complete instructions and writable literals that it does not take is refused as malformed control
flow, never by another failure.
-/
namespace Sil

def Error.IsMalformedFlow (e : Error) : Prop := ∃ label reason, e = .malformedFlow label reason

namespace Control
open Emission

theorem isMalformedFlow_of_flowError {α : Type} {label : Option String} {reason : FlowReason}
    {e : Error} (h : (flowError label reason : Except Error α) = .error e) : e.IsMalformedFlow := by
  cases h
  exact ⟨_, _, rfl⟩

theorem requireSpelling_of_isSpellable {o : Operand} (h : o.isSpellable) :
    requireSpelling o = .ok () := by
  simp [requireSpelling, h]

theorem isWritable_of_isSpellable {o : Operand} (h : o.isSpellable) : o.isWritable := by
  cases o with
  | const => rfl
  | var | temp => exact h

theorem checkTested_error {c : Control} {i : Instruction} {e : Error}
    (ht : c.tested.all Operand.isSpellable) (h : c.checkTested i = .error e) :
    e.IsMalformedFlow := by
  unfold checkTested at h
  cases htest : c.tested with
  | none =>
    rw [htest] at h
    cases h
  | some test =>
    rw [htest] at h ht
    have hw : test.isWritable := isWritable_of_isSpellable ht
    simp only [hw, ↓reduceIte] at h
    split at h
    · cases h
    · cases h
      exact ⟨_, _, rfl⟩

theorem branch_error {c : Control} {label : Option String} {e : Error}
    (ht : c.tested.all Operand.isSpellable) (h : c.branch label = .error e) :
    e.IsMalformedFlow := by
  unfold branch at h
  cases htest : c.tested with
  | none =>
    rw [htest] at h
    exact isMalformedFlow_of_flowError h
  | some test =>
    rw [htest] at h ht
    dsimp only at h
    split at h
    · exact isMalformedFlow_of_flowError h
    · rw [requireSpelling_of_isSpellable ht] at h
      cases h

theorem meet_error {c : Control} {label : Option String} {e : Error}
    (h : c.meet label = .error e) : e.IsMalformedFlow := by
  unfold meet at h
  split at h
  · exact isMalformedFlow_of_flowError h
  · split at h
    · cases h
    · split at h
      · exact isMalformedFlow_of_flowError h
      · cases h

theorem leave_error {c : Control} {e : Error} (h : c.leave = .error e) : e.IsMalformedFlow := by
  unfold leave at h
  split at h
  · cases h
    exact ⟨_, _, rfl⟩
  · cases h
  · exact isMalformedFlow_of_flowError h

theorem perform_error {upcoming : Option Instruction} {c : Control} {i : Instruction} {e : Error}
    (hi : i.isSpellable) (ht : c.tested.all Operand.isSpellable)
    (h : c.perform upcoming i = .error e) : e.IsMalformedFlow := by
  have hspelled : i.operands.forM requireSpelling = .ok () := by
    have hall : i.operands.all Operand.isSpellable = true := hi
    rw [forM_requireSpelling, if_pos hall]
  unfold perform at h
  cases hop : i.opcode with
  | decl | cmp | jump =>
    rw [hop] at h
    cases h
  | mov | binary | ret =>
    simp only [hop, hspelled] at h
    cases h
  | jumpIfFalse | jumpIfTrue =>
    rw [hop] at h
    exact branch_error ht h
  | label =>
    rw [hop] at h
    exact meet_error h
  | func =>
    rw [hop] at h
    dsimp only at h
    split at h
    · exact isMalformedFlow_of_flowError h
    · cases h
  | param =>
    rw [hop] at h
    dsimp only at h
    split at h
    · exact isMalformedFlow_of_flowError h
    · cases h
  | endFunc =>
    rw [hop] at h
    exact leave_error h

theorem step_error {upcoming : Option Instruction} {c : Control} {i : Instruction} {e : Error}
    (hi : i.isSpellable) (ht : c.tested.all Operand.isSpellable)
    (h : c.step upcoming i = .error e) :
    e.IsMalformedFlow := by
  have ht' : (if i.opcode = .param then c else c.enter).tested.all Operand.isSpellable := by
    split
    · exact ht
    · rwa [enter_tested]
  unfold step at h
  dsimp only at h
  cases hcheck : (if i.opcode = .param then c else c.enter).checkTested i with
  | error e' =>
    rw [hcheck] at h
    cases h
    exact checkTested_error ht' hcheck
  | ok u =>
    rw [hcheck] at h
    exact perform_error hi ht' h

/-- A stream that can be spelled fails only as malformed control flow. -/
theorem run_error {c : Control} {is : List Instruction} {e : Error} (hi : ∀ i ∈ is, i.isSpellable)
    (ht : c.tested.all Operand.isSpellable) (h : c.run is = .error e) : e.IsMalformedFlow := by
  induction is generalizing c with
  | nil => cases h
  | cons i rest ih =>
    have hfirst : i.isSpellable := hi i List.mem_cons_self
    rw [run] at h
    cases hstep : c.step rest.head? i with
    | error e' =>
      rw [hstep] at h
      cases h
      exact step_error hfirst ht hstep
    | ok c₁ =>
      rw [hstep] at h
      have hmove := moves_of_step hstep
      exact ih (fun j hj => hi j (List.mem_cons_of_mem i hj)) (tested_spellable hmove hfirst) h

theorem finish_error {c : Control} {e : Error} (hc : ∀ l ∈ c.awaited, l.isSome)
    (h : c.finish = .error e) : e.IsMalformedFlow := by
  unfold finish at h
  split at h
  · exact isMalformedFlow_of_flowError h
  · split at h
    · cases h
    · have hleast : ∃ l, leastLabel c.enter.awaited = .ok l := by
        have hnone : none ∉ c.awaited := fun hl => by simpa using hc none hl
        unfold leastLabel
        rw [enter_awaited]
        split
        · exact ⟨_, rfl⟩
        · simp [hnone]
      obtain ⟨l, hl⟩ := hleast
      rw [hl] at h
      exact isMalformedFlow_of_flowError h

section Accept

variable {is : List Instruction} (hcomplete : ∀ i ∈ is, i.isComplete)
  (hspell : ∀ i ∈ is, i.isSpellable) (hdistinct : Streams.DistinctBranches is)
include hcomplete hspell hdistinct

theorem accept_ok_iff : (∃ c, accept is = .ok c) ↔ WellStructured is := by
  rw [← Streams.trace_iff_wellStructured hcomplete hdistinct]
  constructor
  · rintro ⟨c', h⟩
    obtain ⟨c, hrun, hfinish⟩ := bind_eq_ok.mp h
    refine ⟨c, trace_of_run hrun, ?_⟩
    unfold finish at hfinish
    split at hfinish
    · cases hfinish
    · rename_i hblocks
      split at hfinish
      · rename_i hawaited
        rw [enter_awaited, List.isEmpty_iff] at hawaited
        exact ⟨hblocks, hawaited⟩
      · obtain ⟨l, -, hl⟩ := bind_eq_ok.mp hfinish
        cases hl
  · rintro ⟨c, htrace, hblocks, hawaited⟩
    have hrun := run_of_trace_spellable htrace hspell rfl
    have hfinish : c.finish = .ok c.enter := by
      unfold finish
      rw [hblocks, enter_awaited, hawaited]
      rfl
    refine ⟨c.enter, ?_⟩
    rw [accept, hrun]
    exact hfinish

theorem accept_error {e : Error} (h : accept is = .error e) : e.IsMalformedFlow := by
  unfold accept at h
  cases hrun : run {} is with
  | error e' =>
    rw [hrun] at h
    cases h
    exact run_error hspell rfl hrun
  | ok c =>
    rw [hrun] at h
    obtain ⟨-, ht⟩ := Streams.fits_of_trace_start hcomplete hdistinct (trace_of_run hrun)
    refine finish_error (fun l hl => ?_) h
    -- A label that is waited for is named by a complete jump.
    obtain ⟨⟨m, -, hm⟩, -⟩ := (ht.awaited l).mp hl
    rcases hm with ⟨i, hi, ho, rfl⟩ | ⟨i, hi, ho, rfl⟩
    · have hfields := hcomplete i (List.mem_of_getElem? hi)
      simp only [Instruction.isComplete, ho, Bool.and_eq_true] at hfields
      exact hfields.2
    · have hfields := hcomplete i (List.mem_of_getElem? hi)
      cases hop : i.opcode <;> simp_all [Instruction.isComplete, Opcode.isConditionalJump]

end Accept

end Control

open Emission in
/-- For instructions with the fields that they need, literals that can be written and conditional
jumps to different labels, emission succeeds on the well structured streams and refuses all others
as malformed control flow. -/
theorem emission_accepts_wellStructured (b : Backend) {is : List Instruction}
    (hcomplete : ∀ i ∈ is, i.isComplete) (hspell : ∀ i ∈ is, i.isSpellable)
    (hdistinct : (Streams.branchTargets is).Nodup) :
    ((∃ s, emit b is = .ok s) ↔ WellStructured is) ∧
      (¬ WellStructured is → ∃ label reason, emit b is = .error (.malformedFlow label reason)) := by
  have hbranches := Streams.distinctBranches_of_nodup hdistinct
  have haccept := Control.accept_ok_iff hcomplete hspell hbranches
  have hcontrol := control_emit b hcomplete
  cases hemit : emit b is with
  | ok s =>
    rw [hemit] at hcontrol
    have hw : WellStructured is := haccept.mp ⟨_, hcontrol.symm⟩
    exact ⟨⟨fun _ => hw, fun _ => ⟨s, rfl⟩⟩, fun hnot => absurd hw hnot⟩
  | error e =>
    rw [hemit] at hcontrol
    have hmalformed := Control.accept_error hcomplete hspell hbranches hcontrol.symm
    have hw : ¬ WellStructured is := by
      intro hw
      obtain ⟨c, hc⟩ := haccept.mpr hw
      rw [hc] at hcontrol
      cases hcontrol
    refine ⟨⟨?_, fun h => absurd h hw⟩, fun _ => ?_⟩
    · rintro ⟨s, hs⟩
      cases hs
    · obtain ⟨label, reason, rfl⟩ := hmalformed
      exact ⟨label, reason, rfl⟩

/-- A loop whose test leaves it, and a function with a parameter. -/
def loopAndFunction : List Instruction :=
  [.mark "L0", .cmp (.var "a") .unknown, .jumpIfFalse "L1" .unknown,
    .mov "a" (.const .null "null") .unknown, .jump "L0" .unknown, .mark "L1",
    .func "f" .unknown, .param "p" .unknown, .ret (some (.var "p")) .unknown, .endFunc .unknown]

def crossedBranches : List Instruction :=
  [.cmp (.var "a") .unknown, .jumpIfFalse "L0" .unknown, .cmp (.var "a") .unknown,
    .jumpIfTrue "L1" .unknown, .mark "L0", .mark "L1"]

theorem emission_accepts_loopAndFunction :
    (WellStructured loopAndFunction ∧ ∃ s, Emission.emit .cpp loopAndFunction = .ok s) ∧
      ¬ WellStructured crossedBranches ∧
      ∃ label reason,
        Emission.emit .python crossedBranches = .error (.malformedFlow label reason) := by
  have hcomplete : ∀ i ∈ loopAndFunction, i.isComplete := by decide
  have hspell : ∀ i ∈ loopAndFunction, i.isSpellable := by decide
  have hemit : ∃ s, Emission.emit .cpp loopAndFunction = .ok s := ⟨_, rfl⟩
  have hcomplete' : ∀ i ∈ crossedBranches, i.isComplete := by decide
  have hspell' : ∀ i ∈ crossedBranches, i.isSpellable := by decide
  have hrefused : ¬ ∃ s, Emission.emit .python crossedBranches = .ok s := by
    rintro ⟨s, hs⟩
    cases hs
  have hloop := emission_accepts_wellStructured .cpp hcomplete hspell (by decide)
  have hcrossed := emission_accepts_wellStructured .python hcomplete' hspell' (by decide)
  have hnot : ¬ WellStructured crossedBranches := fun hw => hrefused (hcrossed.1.mpr hw)
  exact ⟨⟨hloop.1.mp hemit, hemit⟩, hnot, hcrossed.2 hnot⟩

end Sil
