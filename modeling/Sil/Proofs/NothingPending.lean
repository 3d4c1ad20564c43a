import Mathlib
import Sil.Proofs.DeclaredPositions
import Sil.Proofs.EmissionInvariant
import Sil.Proofs.LoweredEmission

/-!
What an emission leaves behind when it accepts a stream, lowered or not. Every function is closed by
its matching end, and every comparison before the last instruction is used by a conditional jump
right after it. A comparison that comes last meets no check: its operand stays tested. Main
statement: an accepted stream leaves nothing pending exactly if it does not end in a comparison.
-/
namespace Sil

namespace Emission
open EmissionState Streams Lowering

/-- The comparison at a position is used: the next instruction is a conditional jump that finds its
operand tested, opens a block on it and leaves none tested. -/
def TestUsed (b : Backend) (is : List Instruction) (k : Nat) : Prop :=
  ∃ i j test t t', is[k]? = some i ∧ i.operands.head? = some test ∧
    is[k + 1]? = some j ∧ j.opcode.isConditionalJump ∧
    after b (initial b) is (k + 1) = .ok t ∧ t.tested = some test ∧
    after b (initial b) is (k + 2) = .ok t' ∧ t'.tested = none ∧
    t'.lines = t.lines ++ [⟨t.depth, .openBranch (j.opcode == .jumpIfFalse) test⟩]

/-- The function that starts at a position is closed: its matching end finds it innermost and brings
back the blocks and the depth from before its start. -/
def FunctionEnded (b : Backend) (is : List Instruction) (p : Nat) : Prop :=
  ∃ q i t u t', FunctionSpan is p q ∧ is[p]? = some i ∧
    after b (initial b) is p = .ok t ∧ t.header = none ∧
    after b (initial b) is q = .ok u ∧
    u.control.enter.blocks = (.function, i.name) :: t.control.blocks ∧
    after b (initial b) is (q + 1) = .ok t' ∧ t'.header = none ∧
    t'.control.blocks = t.control.blocks ∧ t'.depth = t.depth

/-- Everything that a stream opened was used or closed, and the last state has nothing to wait
for. -/
structure NothingPending (b : Backend) (is : List Instruction) (s : EmissionState) : Prop where
  tests : ∀ k, OpAt is k .cmp → TestUsed b is k
  functions : ∀ p, OpAt is p .func → FunctionEnded b is p
  settled : Settled b s

variable {b : Backend} {s s' t : EmissionState} {i : Instruction} {is : List Instruction}
  {k p q : Nat} {upcoming : Option Instruction}

/-- The step at a position of an accepted stream, with the states around it. -/
theorem exists_states_around (h : emit b is = .ok s) (hi : is[k]? = some i) : ∃ t t',
    after b (initial b) is k = .ok t ∧ after b (initial b) is (k + 1) = .ok t' ∧
      step b is[k + 1]? t i = .ok t' := by
  obtain ⟨t, t', ht, hstep⟩ := exists_step h hi
  refine ⟨t, t', ht, ?_, hstep⟩
  rw [after_succ hi, ht]
  exact hstep

theorem isNested_after (hk : k ≤ is.length) (h : after b (initial b) is k = .ok t) :
    t.IsNested b := by
  have hinitial : (initial b).IsNested b := rfl
  exact after_invariant (P := fun _ t => t.IsNested b) hinitial
    (fun _ _ _ _ _ ht hstep => isNested_step hstep ht) hk h

/-- Only a function's start and its parameters leave a header. -/
theorem header_step (h : step b upcoming s i = .ok s') (hfunc : i.opcode ≠ .func)
    (hparam : i.opcode ≠ .param) : s'.header = none := by
  have hsome : s'.header.isSome ↔ i.opcode = .func ∨ i.opcode = .param :=
    moves_header_isSome (step_moves h)
  simpa [hfunc, hparam] using hsome

/-- A comparison leaves its operand tested. -/
theorem tested_of_cmp (h : step b upcoming s i = .ok s') (ho : i.opcode = .cmp) :
    ∃ test, i.operands.head? = some test ∧ s'.tested = some test := by
  obtain ⟨test, htest⟩ := Option.isSome_iff_exists.mp ((tested_step h).mpr ho)
  have hoperand : s'.tested = if i.opcode = .cmp then i.operands.head? else none :=
    moves_tested_eq (step_moves h)
  rw [if_pos ho, htest] at hoperand
  exact ⟨test, hoperand.symm, htest⟩

/-- A conditional jump with no function pending writes the line that its block opens with. -/
theorem jump_uses_test {test : Operand} (h : step b upcoming s i = .ok s')
    (ho : i.opcode.isConditionalJump) (hheader : s.header = none) (htest : s.tested = some test) :
    s'.lines = s.lines ++ [⟨s.depth, .openBranch (i.opcode == .jumpIfFalse) test⟩] := by
  obtain ⟨t, u, henter, -, hperforms, rfl⟩ := step_cases h
  have hsame : t = s := by
    rcases henter with ⟨-, rfl⟩ | ⟨-, henters⟩
    · rfl
    · cases henters with
      | nothing => rfl
      | function hsome =>
        rw [hheader] at hsome
        cases hsome
  subst hsame
  cases hperforms with
  | branch _ htest' =>
    cases htest.symm.trans htest'
    rfl
  | declareUntyped _ ho' | declareTyped _ ho' | declareAgain _ ho' | mov ho' | binary ho'
  | cmp ho' | jump ho' | jumpClosing ho' | label ho' | labelClosing ho' | func ho' | param ho'
  | endFunc ho' | ret ho' =>
    rw [ho'] at ho
    cases ho

/-- A comparison that is not the last instruction is used by the one after it. -/
theorem testUsed_of_lt (h : emit b is = .ok s) (hk : OpAt is k .cmp) (hlast : k + 1 < is.length) :
    TestUsed b is k := by
  obtain ⟨i, hi, ho⟩ := hk
  have hj : is[k + 1]? = some is[k + 1] := List.getElem?_eq_getElem hlast
  obtain ⟨t₀, t, ht₀, ht, hstep⟩ := exists_states_around h hi
  obtain ⟨t₁, t', ht₁, ht', hjump⟩ := exists_states_around h hj
  cases ht.symm.trans ht₁
  obtain ⟨test, hoperand, htest⟩ := tested_of_cmp hstep ho
  have hconditional : is[k + 1].opcode.isConditionalJump := by
    apply (moves_test_iff (step_moves hjump)).mpr
    exact Option.isSome_of_eq_some htest
  have hused : t'.tested = none := by
    rw [← Option.not_isSome_iff_eq_none, tested_step hjump]
    exact ne_of_isConditionalJump hconditional rfl
  have hheader : t.header = none := header_step hstep (by simp [ho]) (by simp [ho])
  exact ⟨i, is[k + 1], test, t, t', hi, hoperand, hj, hconditional, ht, htest, ht', hused,
    jump_uses_test hjump hconditional hheader htest⟩

/-- No function starts while the header of another one is pending. -/
theorem header_of_func (h : step b upcoming s i = .ok s') (ho : i.opcode = .func) :
    s.header = none := by
  have hbranches := (moves_func (step_moves h) ho).1
  cases hheader : s.header with
  | none => rfl
  | some header =>
    have hmem : (.function, header.name) ∈ s.control.enter.blocks := by
      simp [Control.enter, EmissionState.control, hheader]
    cases hbranches _ hmem

/-- What takes the start of a function off the stack is an end, and it leaves what was open before
the function. -/
theorem popped_function (hp : OpAt is p .func) (hq : p ∈ openBefore is q)
    (hgone : p ∉ openBefore is (q + 1)) :
    OpAt is q .endFunc ∧ openBefore is q = p :: openBefore is p ∧
      openBefore is (q + 1) = openBefore is p := by
  obtain ⟨-, heq⟩ | ⟨-, heq⟩ | ⟨-, r, heq, hcloses⟩ := openBefore_cases is q
  · exact absurd (heq ▸ List.mem_cons_of_mem q hq) hgone
  · exact absurd (heq ▸ hq) hgone
  · obtain rfl : p = r := by
      rw [heq] at hq
      exact (List.mem_cons.mp hq).resolve_right hgone
    have hinnermost : openBefore is q = [] ++ p :: openBefore is (q + 1) := heq
    have houter : openBefore is (q + 1) = openBefore is p := openBefore_of_suffix hinnermost
    refine ⟨hcloses.resolve_right ?_, houter ▸ heq, houter⟩
    rintro ⟨label, hb, -⟩
    exact hb.not_func hp

/-- Every function of an accepted stream is closed by its matching end. -/
theorem functionEnded_of_emit (h : emit b is = .ok s) (hp : OpAt is p .func) :
    FunctionEnded b is p := by
  have hbrackets := bracketed_of_emit h
  obtain ⟨q, -, hq, hgone⟩ :=
    hbrackets.exists_popped (mem_openBefore_succ_self (.inl hp)) hp.lt_length
  obtain ⟨hend, hinner, houter⟩ := popped_function hp hq hgone
  have hspan : FunctionSpan is p q := by
    obtain hspan | ⟨hjump, -⟩ := hbrackets.span_of_popped hq hgone
    · exact hspan.function hp
    · cases opAt_unique hend hjump
  obtain ⟨i, hi, ho⟩ := hp
  obtain ⟨j, hj, hoj⟩ := hend
  have hpl : p < is.length := lt_length_of_getElem? hi
  have hql : q < is.length := lt_length_of_getElem? hj
  obtain ⟨t, t₁, ht, ht₁, hstart⟩ := exists_states_around h hi
  obtain ⟨u, t', hu, ht', hleave⟩ := exists_states_around h hj
  have hheader : t.header = none := header_of_func hstart ho
  have hheader' : t'.header = none := header_step hleave (by simp [hoj]) (by simp [hoj])
  -- The blocks of all three states are those of the positions that are open there.
  have hblocks : t.control.blocks = (openBefore is p).map (frame is) := by
    rw [← blocks_after hpl.le ht, enter_of_header_none hheader]
  have hblocks' : t'.control.blocks = (openBefore is p).map (frame is) := by
    rw [← houter, ← blocks_after hql ht', enter_of_header_none hheader']
  have hframe : frame is p = (.function, i.name) := by simp [frame, hi, ho]
  have hopen : u.control.enter.blocks = (.function, i.name) :: t.control.blocks := by
    rw [blocks_after hql.le hu, hinner, List.map_cons, hframe, hblocks]
  have hdepth : t'.depth = t.depth := by
    rw [(isNested_after hql ht').depth_eq hblocks', (isNested_after hpl.le ht).depth_eq hblocks]
  exact ⟨q, i, t, u, t', hspan, hi, ht, hheader, hu, hopen, ht', hheader',
    hblocks'.trans hblocks.symm, hdepth⟩

/-- An operand is tested after a prefix exactly if the prefix ends in a comparison. -/
theorem tested_after (hk : k ≤ is.length) (h : after b (initial b) is k = .ok t) :
    t.tested.isSome ↔ TestBefore is k := by
  refine after_invariant (P := fun k t => t.tested.isSome ↔ TestBefore is k) ?_ ?_ hk h
  · simp [initial, TestBefore]
  · intro k i t t' hi _ hstep
    rw [testBefore_succ hi]
    exact tested_step hstep

/-- But for a tested operand, the last state has nothing to wait for. -/
theorem settled_of_emit (h : emit b is = .ok s) : Settled b { s with tested := none } := by
  obtain ⟨hdepth, hblocks, hforward⟩ := emit_closed h
  exact ⟨hdepth, hblocks, (after_length_of_emit h).2, rfl, hforward⟩

theorem testBefore_length_iff :
    TestBefore is is.length ↔ ∃ i, is.getLast? = some i ∧ i.opcode = .cmp := by
  rw [List.getLast?_eq_getElem?]
  constructor
  · rintro ⟨k, hlength, hk⟩
    rwa [hlength]
  · rintro ⟨i, hi, ho⟩
    have hlt := lt_length_of_getElem? hi
    exact ⟨is.length - 1, by omega, i, hi, ho⟩

/-- The operand of a comparison at the end of an accepted stream stays tested. -/
theorem tested_of_last (h : emit b is = .ok s) (hi : is.getLast? = some i) (ho : i.opcode = .cmp) :
    ∃ test, i.operands.head? = some test ∧ s.tested = some test := by
  have hafter := (after_length_of_emit h).1
  have hlast : is[is.length - 1]? = some i := List.getLast?_eq_getElem?.symm.trans hi
  have hlength : is.length - 1 + 1 = is.length :=
    Nat.sub_add_cancel (lt_length_of_getElem? hlast).pos
  obtain ⟨t, t', ht, ht', hstep⟩ := exists_states_around h hlast
  rw [hlength, hafter] at ht'
  cases ht'
  exact tested_of_cmp hstep ho

end Emission

open Emission Streams Lowering in
/-- An accepted stream leaves nothing pending, unless its last instruction is a comparison. The
operand of this comparison is then all that is left. -/
theorem nothing_pending_iff (b : Backend) {is : List Instruction} {s : EmissionState}
    (h : emit b is = .ok s) :
    (NothingPending b is s ↔ ¬ ∃ i, is.getLast? = some i ∧ i.opcode = .cmp) ∧
    ∀ i, is.getLast? = some i → i.opcode = .cmp →
      (∃ test, i.operands.head? = some test ∧ s.tested = some test) ∧
      Settled b { s with tested := none } ∧
      (∀ k, OpAt is k .cmp → k + 1 < is.length → TestUsed b is k) ∧
      ∀ p, OpAt is p .func → FunctionEnded b is p := by
  have hsettled := settled_of_emit h
  have htested := tested_after le_rfl (after_length_of_emit h).1
  rw [testBefore_length_iff] at htested
  refine ⟨⟨fun hpending hends => ?_, fun hends => ⟨fun k hk => ?_, fun p hp => ?_, ?_⟩⟩,
    fun i hi ho => ?_⟩
  · have hsome := htested.mpr hends
    rw [hpending.settled.tested] at hsome
    cases hsome
  · -- A comparison in the last place would be the one that the stream ends in.
    have hlt := hk.lt_length
    have hlast : k + 1 ≠ is.length := fun hlength =>
        hends (testBefore_length_iff.mp ⟨k, hlength.symm, hk⟩)
    exact testUsed_of_lt h hk (by omega)
  · exact functionEnded_of_emit h hp
  · have hnone : s.tested = none := by simpa [hends] using htested
    exact { hsettled with tested := hnone }
  · exact ⟨tested_of_last h hi ho, hsettled, fun k hk hlt => testUsed_of_lt h hk hlt,
      fun p hp => functionEnded_of_emit h hp⟩

/-- A function that returns early, and a branch after it with a jump in front of its label. -/
def earlyReturn : List Instruction :=
  [.func "f" .unknown, .param "n" .unknown, .cmp (.var "n") .unknown, .jumpIfTrue "L0" .unknown,
    .ret (some (.var "n")) .unknown, .mark "L0", .endFunc .unknown, .cmp (.var "a") .unknown,
    .jumpIfFalse "L1" .unknown, .jump "L1" .unknown, .mark "L1"]

open Emission Streams in
theorem earlyReturn_leaves_nothing :
    ∃ s, emit .python earlyReturn = .ok s ∧ OpAt earlyReturn 2 .cmp ∧ OpAt earlyReturn 0 .func ∧
      NothingPending .python earlyReturn s := by
  have hemit : ∃ s, emit .python earlyReturn = .ok s := ⟨_, rfl⟩
  obtain ⟨s, hs⟩ := hemit
  refine ⟨s, hs, ⟨_, rfl, rfl⟩, ⟨_, rfl, rfl⟩, (nothing_pending_iff .python hs).1.mpr ?_⟩
  rintro ⟨i, hi, ho⟩
  cases hi
  cases ho

def loneTest : List Instruction := [.cmp (.var "a") .unknown]

open Emission in
/-- No check comes after the last instruction for an operand that is still tested. -/
theorem loneTest_leaves_operand :
    ∃ s, emit .cpp loneTest = .ok s ∧ s.tested = some (.var "a") ∧
      ¬ NothingPending .cpp loneTest s := by
  refine ⟨_, rfl, rfl, fun hpending => ?_⟩
  cases hpending.settled.tested

end Sil
