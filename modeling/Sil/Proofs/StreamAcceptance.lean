import Mathlib
import Sil.Proofs.ControlFlow
import Sil.Proofs.Streams

/-!
The control machine accepts exactly the well structured streams. Its state after a prefix says which
labels were met and which branches and functions are open there; so an instruction can be performed
when it fits at its position, and a jump right before a label may close the branch one instruction
early.
-/
namespace Sil.Streams
open Control

variable {is : List Instruction} {k s : Nat} {label : Option String} {c c' : Control}
  {i : Instruction}

theorem ne_of_isConditionalJump {a b : Opcode} (ha : a.isConditionalJump)
    (hb : b.isConditionalJump = false) : a ≠ b := by
  rintro rfl
  rw [ha] at hb
  cases hb

theorem mem_await {l : Option String} :
    l ∈ (c.await label).awaited ↔ l ∈ c.awaited ∨ (label = l ∧ l ∉ c.defined) := by
  unfold await
  dsimp only
  split
  · rename_i hknown
    constructor
    · exact .inl
    · rintro (hl | ⟨rfl, hl⟩)
      · exact hl
      · simpa [hl] using hknown
  · rename_i hnew
    have hd : label ∉ c.defined := by
      intro hd
      simp [hd] at hnew
    constructor
    · intro hl
      rcases List.mem_append.mp hl with hl | hl
      · exact .inl hl
      · cases List.mem_singleton.mp hl
        exact .inr ⟨rfl, hd⟩
    · rintro (hl | ⟨rfl, -⟩)
      · exact List.mem_append_left _ hl
      · exact List.mem_append_right _ (List.mem_singleton_self _)

theorem mem_define {l : Option String} :
    l ∈ (c.define label).awaited ↔ l ∈ c.awaited ∧ label ≠ l := by
  simp [define, ne_comm]

section Moves

variable {upcoming : Option Instruction} (h : Moves upcoming c i c')
include h

theorem moves_conditional (ho : i.opcode.isConditionalJump) : i.label ∉ c.defined ∧
    c' = { c.enter.await i.label with
      tested := none, blocks := (.branch, i.label) :: c.enter.blocks } := by
  cases h with
  | branch _ _ hd => exact ⟨hd, rfl⟩
  | plain ho' =>
    rcases ho' with ho' | ho' | ⟨op, ho'⟩ | ho' <;> simp [ho', Opcode.isConditionalJump] at ho
  | cmp ho' | jump ho' | jumpClosing ho' | label ho' | labelClosing ho' | func ho' | param ho'
    | endFunc ho' => simp [ho', Opcode.isConditionalJump] at ho

theorem moves_label (ho : i.opcode = .label) : i.label ∉ c.defined ∧ c.tested = none ∧
    (((.branch, i.label) ∉ c.enter.blocks ∧ c' = c.enter.define i.label) ∨
      ∃ rest, c.enter.blocks = (.branch, i.label) :: rest ∧ c' = c.enter.close.define i.label) := by
  cases h with
  | label _ ht hd hb => exact ⟨hd, ht, .inl ⟨hb, rfl⟩⟩
  | labelClosing _ ht hd hb => exact ⟨hd, ht, .inr ⟨_, hb, rfl⟩⟩
  | plain ho' | branch ho' | cmp ho' | jump ho' | jumpClosing ho' | func ho' | param ho'
    | endFunc ho' => simp [ho, Opcode.isConditionalJump] at ho'

theorem moves_func (ho : i.opcode = .func) : (∀ b ∈ c.enter.blocks, b.1 = .branch) ∧
    c' = { c.enter with header := some { name := i.name } } := by
  cases h with
  | func _ _ hb => exact ⟨hb, rfl⟩
  | plain ho' | branch ho' | cmp ho' | jump ho' | jumpClosing ho' | label ho' | labelClosing ho'
    | param ho' | endFunc ho' => simp [ho, Opcode.isConditionalJump] at ho'

theorem moves_param (ho : i.opcode = .param) : ∃ header, c.header = some header ∧
    c' = { c with header := some { header with params := header.params ++ [i.name] } } := by
  cases h with
  | param _ _ hh => exact ⟨_, hh, rfl⟩
  | plain ho' | branch ho' | cmp ho' | jump ho' | jumpClosing ho' | label ho' | labelClosing ho'
    | func ho' | endFunc ho' => simp [ho, Opcode.isConditionalJump] at ho'

theorem moves_endFunc (ho : i.opcode = .endFunc) : ∃ name rest,
    c.enter.blocks = (.function, name) :: rest ∧ c' = c.enter.close := by
  cases h with
  | endFunc _ _ hb => exact ⟨_, _, hb, rfl⟩
  | plain ho' | branch ho' | cmp ho' | jump ho' | jumpClosing ho' | label ho' | labelClosing ho'
    | func ho' | param ho' => simp [ho, Opcode.isConditionalJump] at ho'

theorem moves_test_iff : i.opcode.isConditionalJump ↔ c.tested.isSome := by
  cases h with
  | branch ho ht => simp [ho, ht]
  | plain ho ht =>
    obtain ho | ho | ⟨op, ho⟩ | ho := ho <;> simp [ho, ht, Opcode.isConditionalJump]
  | cmp ho ht | jump ho ht | jumpClosing ho ht | label ho ht | labelClosing ho ht | func ho ht
    | param ho ht | endFunc ho ht => simp [ho, ht, Opcode.isConditionalJump]

/-- A test is pending after a comparison only. -/
theorem moves_tested_eq : c'.tested = if i.opcode = .cmp then i.operands.head? else none := by
  cases h with
  | cmp ho ht => simp [ho]
  | branch ho =>
    have hne : i.opcode ≠ .cmp := ne_of_isConditionalJump ho rfl
    simp [hne]
  | plain ho ht =>
    obtain ho | ho | ⟨op, ho⟩ | ho := ho <;> simp [ho, ht]
  | jump ho ht | jumpClosing ho ht | label ho ht | labelClosing ho ht | func ho ht | param ho ht
    | endFunc ho ht => simp [ho, ht, await, close, define]

theorem moves_tested_isSome (hi : i.isComplete) : c'.tested.isSome ↔ i.opcode = .cmp := by
  rw [moves_tested_eq h]
  split
  · rename_i ho
    simp only [Instruction.isComplete, ho, Bool.and_eq_true, beq_iff_eq] at hi
    obtain ⟨test, htest⟩ := List.length_eq_one_iff.mp hi.2
    simp [htest, ho]
  · rename_i ho
    simp [ho]

theorem moves_header_isSome : c'.header.isSome ↔ i.opcode = .func ∨ i.opcode = .param := by
  cases h with
  | branch ho =>
    have hfunc : i.opcode ≠ .func := ne_of_isConditionalJump ho rfl
    have hparam : i.opcode ≠ .param := ne_of_isConditionalJump ho rfl
    simp [hfunc, hparam, await]
  | plain ho ht =>
    obtain ho | ho | ⟨op, ho⟩ | ho := ho <;> simp [ho]
  | cmp ho ht | jump ho ht | jumpClosing ho ht | label ho ht | labelClosing ho ht | func ho ht
    | param ho ht | endFunc ho ht => simp [ho, await, close, define]

theorem moves_defined : c'.defined = c.defined ++ if i.opcode = .label then [i.label] else [] := by
  cases h with
  | branch ho =>
    have hne : i.opcode ≠ .label := ne_of_isConditionalJump ho rfl
    simp [hne, await]
  | plain ho ht =>
    obtain ho | ho | ⟨op, ho⟩ | ho := ho <;> simp [ho]
  | cmp ho ht | jump ho ht | jumpClosing ho ht | label ho ht | labelClosing ho ht | func ho ht
    | param ho ht | endFunc ho ht => simp [ho, await, close, define]

/-- Which labels are waited for after an instruction. -/
theorem mem_awaited_of_moves {l : Option String} : l ∈ c'.awaited ↔
    (l ∈ c.awaited ∨
      ((i.opcode = .jump ∨ i.opcode.isConditionalJump) ∧ i.label = l ∧ l ∉ c.defined)) ∧
      ¬ (i.opcode = .label ∧ i.label = l) := by
  cases h with
  | branch ho =>
    have hne : i.opcode ≠ .label := ne_of_isConditionalJump ho rfl
    have hmem : l ∈ (c.enter.await i.label).awaited ↔ _ := mem_await
    simpa [ho, hne] using hmem
  | plain ho ht =>
    rcases ho with ho | ho | ⟨op, ho⟩ | ho <;> simp [ho, Opcode.isConditionalJump]
  | jump ho | jumpClosing ho =>
    have hmem : l ∈ (c.enter.await i.label).awaited ↔ _ := mem_await
    simpa [ho, close] using hmem
  | label ho | labelClosing ho =>
    have hmem : l ∈ (c.enter.define i.label).awaited ↔ _ := mem_define
    simpa [ho, close, define, Opcode.isConditionalJump] using hmem
  | cmp ho ht | func ho ht | param ho ht | endFunc ho ht =>
    simp [ho, close, Opcode.isConditionalJump]

end Moves

variable (is) in
def frame (s : Nat) : BlockKind × Option String :=
  match is[s]? with
  | some i => if i.opcode = .func then (.function, i.name) else (.branch, i.label)
  | none => (.branch, none)

theorem frame_of_branchesAt (h : BranchesAt is s label) : frame is s = (.branch, label) := by
  obtain ⟨i, hi, hb, rfl⟩ := h
  have hne : i.opcode ≠ .func := ne_of_isConditionalJump hb rfl
  simp [frame, hi, hne]

theorem frame_of_func (h : OpAt is s .func) : (frame is s).1 = .function := by
  obtain ⟨i, hi, ho⟩ := h
  simp [frame, hi, ho]

theorem Opens.branchesAt_of_frame (h : Opens is s) (hf : frame is s = (.branch, label)) :
    BranchesAt is s label := by
  rcases h with h | ⟨label', h⟩
  · have hkind := frame_of_func h
    rw [hf] at hkind
    cases hkind
  · have hframe := frame_of_branchesAt h
    rw [hf] at hframe
    cases hframe
    exact h

theorem Opens.func_of_frame (h : Opens is s) (hf : (frame is s).1 = .function) :
    OpAt is s .func := by
  rcases h with h | ⟨label, h⟩
  · exact h
  · rw [frame_of_branchesAt h] at hf
    cases hf

/-- Descending lists with the same members are the same. -/
theorem eq_of_descending {l l' : List Nat} (h : l.Pairwise (· > ·)) (h' : l'.Pairwise (· > ·))
    (hmem : ∀ s, s ∈ l ↔ s ∈ l') : l = l' := by
  have hnodup {l : List Nat} (hl : l.Pairwise (· > ·)) : l.Nodup := hl.imp fun hlt => ne_of_gt hlt
  exact List.Perm.eq_of_pairwise' h h'
    ((List.perm_ext_iff_of_nodup (hnodup h) (hnodup h')).mpr hmem)

variable (is) in
/-- The positions that are open at a position, the innermost first. -/
structure Stack (k : Nat) (stack : List Nat) : Prop where
  sorted : stack.Pairwise (· > ·)
  mem : ∀ s, s ∈ stack ↔ OpenAt is k s

namespace Stack

variable {t : Nat} {rest stack : List Nat}

theorem le_head (h : Stack is k (t :: rest)) (hs : OpenAt is k s) : s ≤ t := by
  rcases List.mem_cons.mp ((h.mem s).mpr hs) with rfl | hs
  · exact le_rfl
  · have := List.rel_of_pairwise_cons h.sorted hs
    omega

theorem head_open (h : Stack is k (t :: rest)) : OpenAt is k t := (h.mem t).mp List.mem_cons_self

theorem head_not_mem (h : Stack is k (t :: rest)) : t ∉ rest := by
  intro ht
  have := List.rel_of_pairwise_cons h.sorted ht
  omega

theorem push (h : Stack is k stack) (hk : Opens is k) : Stack is (k + 1) (k :: stack) where
  sorted := by
    refine List.pairwise_cons.mpr ⟨fun s hs => ?_, h.sorted⟩
    exact ((h.mem s).mp hs).1
  mem s := by
    have hspan : ¬ Span is s k := hk.not_span_end
    rw [openAt_succ, List.mem_cons, h.mem]
    simp [hk, hspan]

theorem keep (h : Stack is k stack) (hk : ¬ Opens is k)
    (hspan : ∀ s, OpenAt is k s → ¬ Span is s k) :
    Stack is (k + 1) stack where
  sorted := h.sorted
  mem s := by
    rw [openAt_succ, h.mem]
    constructor
    · intro hs
      exact .inr ⟨hs, hspan s hs⟩
    · rintro (⟨-, hopens⟩ | ⟨hs, -⟩)
      · exact absurd hopens hk
      · exact hs

theorem pop (h : Stack is k (t :: rest)) (hk : ¬ Opens is k) (ht : Span is t k)
    (hspan : ∀ s, OpenAt is k s → Span is s k → s = t) : Stack is (k + 1) rest where
  sorted := h.sorted.of_cons
  mem s := by
    rw [openAt_succ]
    constructor
    · intro hs
      have hopen := (h.mem s).mp (List.mem_cons_of_mem t hs)
      refine .inr ⟨hopen, fun hsk => ?_⟩
      cases hspan s hopen hsk
      exact h.head_not_mem hs
    · rintro (⟨-, hopens⟩ | ⟨hs, hsk⟩)
      · exact absurd hopens hk
      · rcases List.mem_cons.mp ((h.mem s).mpr hs) with rfl | hs
        · exact absurd ht hsk
        · exact hs

end Stack

variable (is) in
/-- Blocks that are the positions open at a position. A branch whose label comes next may be closed
already. -/
def Matches (k : Nat) (blocks : List (BlockKind × Option String)) : Prop :=
  ∃ stack, Stack is k stack ∧ (blocks = stack.map (frame is) ∨
    ∃ t rest l, stack = t :: rest ∧ BranchesAt is t l ∧ DefinesAt is k l ∧
      blocks = rest.map (frame is))

variable (is) in
/-- The state of the control machine before a position. -/
structure Tracks (k : Nat) (c : Control) : Prop where
  tested : c.tested.isSome ↔ TestBefore is k
  header : c.header.isSome ↔ HeaderBefore is k
  defined : ∀ l, l ∈ c.defined ↔ ∃ m, m < k ∧ DefinesAt is m l
  awaited : ∀ l, l ∈ c.awaited ↔
    (∃ m, m < k ∧ (JumpsAt is m l ∨ BranchesAt is m l)) ∧ ¬ ∃ m, m < k ∧ DefinesAt is m l
  blocks : Matches is k c.enter.blocks

theorem tracks_zero : Tracks is 0 {} where
  tested := by simp [TestBefore]
  header := by simp [HeaderBefore]
  defined := by simp
  awaited := by simp
  blocks := ⟨[], ⟨List.Pairwise.nil, fun s => by simp [OpenAt]⟩, .inl rfl⟩

variable (is) in
/-- The open positions whose blocks are open too: all of them, or all but a branch whose label comes
next, which may be closed already. -/
def Unclosed (k : Nat) (stack : List Nat) : Prop :=
  Stack is k stack ∨ ∃ t l, Stack is k (t :: stack) ∧ BranchesAt is t l ∧ DefinesAt is k l

theorem matches_iff {bs : List (BlockKind × Option String)} :
    Matches is k bs ↔ ∃ stack, Unclosed is k stack ∧ bs = stack.map (frame is) := by
  constructor
  · rintro ⟨stack, hstack, hblocks | ⟨t, rest, l, rfl, hb, hdef, hblocks⟩⟩
    · exact ⟨stack, .inl hstack, hblocks⟩
    · exact ⟨rest, .inr ⟨t, l, hstack, hb, hdef⟩, hblocks⟩
  · rintro ⟨stack, hstack | ⟨t, l, hstack, hb, hdef⟩, hblocks⟩
    · exact ⟨stack, hstack, .inl hblocks⟩
    · exact ⟨t :: stack, hstack, .inr ⟨t, stack, l, rfl, hb, hdef, hblocks⟩⟩

variable (is) in
/-- A position where nothing starts or ends. -/
structure Neutral (k : Nat) : Prop where
  opens : ¬ Opens is k
  label : ¬ OpAt is k .label
  endFunc : ¬ OpAt is k .endFunc

theorem Neutral.not_span (h : Neutral is k) : ¬ Span is s k := by
  intro hs
  rcases hs.opAt_end with hl | he
  · exact h.label hl
  · exact h.endFunc he

theorem not_opens_of_definesAt (h : DefinesAt is k label) : ¬ Opens is k := by
  obtain ⟨i, hi, ho, -⟩ := h
  rintro (⟨j, hj, hf⟩ | ⟨l, j, hj, hb, -⟩)
  · cases hi.symm.trans hj
    rw [ho] at hf
    cases hf
  · cases hi.symm.trans hj
    exact ne_of_isConditionalJump hb rfl ho

/-- At a label, the branches that end are those that wait for it. -/
theorem branchesAt_of_span (hl : DefinesAt is k label) (h : Span is s k) :
    BranchesAt is s label := by
  obtain ⟨-, l, hb, hdef⟩ | h := h
  · cases hdef.unique hl
    exact hb
  · cases opAt_unique hl.opAt h.opAt

namespace Unclosed

variable {t : Nat} {stack : List Nat}

/-- Away from labels the open blocks are exactly the open positions. -/
theorem exact (h : Unclosed is k stack) (hk : ¬ OpAt is k .label) : Stack is k stack := by
  obtain h | ⟨t, l, -, -, hdef⟩ := h
  · exact h
  · exact absurd hdef.opAt hk

theorem head_opens (h : Unclosed is k (t :: stack)) : Opens is t := by
  obtain h | ⟨r, l, h, -, -⟩ := h
  · exact h.head_open.2.1
  · exact ((h.mem t).mp (List.mem_cons_of_mem r List.mem_cons_self)).2.1

theorem keep (h : Unclosed is k stack) (hk : Neutral is k) : Unclosed is (k + 1) stack :=
  .inl ((h.exact hk.label).keep hk.opens fun _ _ => hk.not_span)

/-- A branch closed in front of its label. -/
theorem early (h : Unclosed is k (t :: stack)) (hk : Neutral is k) (hb : BranchesAt is t label)
    (hl : DefinesAt is (k + 1) label) : Unclosed is (k + 1) stack :=
  .inr ⟨t, label, (h.exact hk.label).keep hk.opens fun _ _ => hk.not_span, hb, hl⟩

theorem push (h : Unclosed is k stack) (hk : Opens is k) : Unclosed is (k + 1) (k :: stack) := by
  refine .inl ((h.exact ?_).push hk)
  rintro ⟨i, hi, ho⟩
  exact not_opens_of_definesAt ⟨i, hi, ho, rfl⟩ hk

theorem meet (h : Unclosed is k stack) (hd : DistinctBranches is) (hl : DefinesAt is k label)
    (hnot : ∀ s ∈ stack, ¬ BranchesAt is s label) : Unclosed is (k + 1) stack := by
  have hopens := not_opens_of_definesAt hl
  left
  obtain h | ⟨t, l, h, hb, hdef⟩ := h
  · refine h.keep hopens fun s hs hspan => ?_
    exact hnot s ((h.mem s).mpr hs) (branchesAt_of_span hl hspan)
  · cases hdef.unique hl
    have hspan : Span is t k := .inl ⟨h.head_open.1, label, hb, hl⟩
    exact h.pop hopens hspan fun s _ hs => hd s t label (branchesAt_of_span hl hs) hb

theorem close (h : Unclosed is k (t :: stack)) (hd : DistinctBranches is)
    (hl : DefinesAt is k label) (hb : BranchesAt is t label) :
    Unclosed is (k + 1) stack := by
  obtain h | ⟨r, l, h, hr, hdef⟩ := h
  · have hspan : Span is t k := .inl ⟨h.head_open.1, label, hb, hl⟩
    exact .inl (h.pop (not_opens_of_definesAt hl) hspan
      fun s _ hs => hd s t label (branchesAt_of_span hl hs) hb)
  · -- The branch is closed already, and no other one waits for the label.
    cases hdef.unique hl
    cases hd t r label hb hr
    exact absurd List.mem_cons_self h.head_not_mem

theorem leave (h : Unclosed is k (t :: stack)) (hk : OpAt is k .endFunc) (ht : OpAt is t .func)
    (hfits : ∀ m j, m ≤ k → is[m]? = some j → Fits is m j) : Unclosed is (k + 1) stack := by
  have hlabel : ¬ OpAt is k .label := by
    intro hl
    cases opAt_unique hk hl
  have hopens : ¬ Opens is k := by
    rintro (hf | ⟨l, j, hj, hb, -⟩)
    · cases opAt_unique hk hf
    · obtain ⟨i, hi, ho⟩ := hk
      cases hi.symm.trans hj
      exact ne_of_isConditionalJump hb rfl ho
  have hstack := h.exact hlabel
  have hspan := functionSpan_of_openAt hfits hstack.head_open ht hk
  refine .inl (hstack.pop hopens (.inr hspan) fun s hs hsk => ?_)
  by_contra hne
  have hle := hstack.le_head hs
  have hsfunc : OpAt is s .func := by
    rcases hsk with ⟨-, l, -, hdef⟩ | hsk
    · exact absurd hdef.opAt hlabel
    · exact hsk.1
  have htk := hstack.head_open.1
  exact not_func_of_openAt hfits hs hsfunc (by omega) (by omega) ht

end Unclosed

theorem Matches.exact {bs : List (BlockKind × Option String)} (h : Matches is k bs)
    (hk : ¬ OpAt is k .label) :
    ∃ stack, Stack is k stack ∧ bs = stack.map (frame is) := by
  obtain ⟨stack, hstack, hblocks⟩ := matches_iff.mp h
  exact ⟨stack, hstack.exact hk, hblocks⟩

section Step

variable {upcoming : Option Instruction} (ht : Tracks is k c) (hi : is[k]? = some i)
include ht hi

theorem Tracks.exact_of_opcode (ho : i.opcode ≠ .label) :
    ∃ stack, Stack is k stack ∧ c.enter.blocks = stack.map (frame is) := by
  apply ht.blocks.exact
  rintro ⟨j, hj, hl⟩
  cases hi.symm.trans hj
  exact ho hl

/-- A label that is met ends the innermost branch or none. -/
theorem innermost_of_moves (hd : DistinctBranches is) (h : Moves upcoming c i c')
    (ho : i.opcode = .label) (hs : OpenAt is k s) (hb : BranchesAt is s i.label) {t : Nat}
    (ht' : OpenAt is k t) : t ≤ s := by
  have hframe := frame_of_branchesAt hb
  obtain ⟨stack, hstack, hblocks | ⟨t₀, rest, l, rfl, hb₀, hdef, -⟩⟩ := ht.blocks
  · obtain ⟨-, -, ⟨hnot, -⟩ | ⟨rest, hhead, -⟩⟩ := moves_label h ho
    · refine absurd ?_ hnot
      rw [hblocks, ← hframe]
      exact List.mem_map_of_mem ((hstack.mem s).mpr hs)
    · rw [hhead] at hblocks
      obtain ⟨t₀, rest, rfl, hframe₀, -⟩ := List.map_eq_cons_iff.mp hblocks.symm
      have hb₀ := hstack.head_open.2.1.branchesAt_of_frame hframe₀
      cases hd s t₀ i.label hb hb₀
      exact hstack.le_head ht'
  · have hlabel : DefinesAt is k i.label := ⟨i, hi, ho, rfl⟩
    cases hdef.unique hlabel
    cases hd s t₀ i.label hb hb₀
    exact hstack.le_head ht'

/-- An instruction that the machine performs fits at its position. -/
theorem fits_of_moves (hd : DistinctBranches is) (h : Moves upcoming c i c') : Fits is k i where
  tested := (moves_test_iff h).trans ht.tested
  param ho := by
    obtain ⟨header, hh, -⟩ := moves_param h ho
    rw [← ht.header, hh]
    rfl
  fresh ho m hm hdef := by
    have hmem : i.label ∈ c.defined := (ht.defined i.label).mpr ⟨m, hm, hdef⟩
    rcases ho with ho | ho
    · exact (moves_conditional h ho).1 hmem
    · exact (moves_label h ho).1 hmem
  innermost ho s hs hb t ht' := innermost_of_moves ht hi hd h ho hs hb ht'
  outside ho s hs hf := by
    obtain ⟨stack, hstack, hblocks⟩ := ht.exact_of_opcode hi (by simp [ho])
    have hmem : frame is s ∈ c.enter.blocks := by
      rw [hblocks]
      exact List.mem_map_of_mem ((hstack.mem s).mpr hs)
    have hbranch := (moves_func h ho).1 _ hmem
    rw [frame_of_func hf] at hbranch
    cases hbranch
  leaves ho := by
    obtain ⟨stack, hstack, hblocks⟩ := ht.exact_of_opcode hi (by simp [ho])
    obtain ⟨name, rest, hhead, -⟩ := moves_endFunc h ho
    rw [hhead] at hblocks
    obtain ⟨t, rest, rfl, hframe, -⟩ := List.map_eq_cons_iff.mp hblocks.symm
    have hfunc := hstack.head_open.2.1.func_of_frame (congrArg Prod.fst hframe)
    exact ⟨t, hstack.head_open, hfunc, fun s hs => hstack.le_head hs⟩

omit ht in
theorem opAt_iff {op : Opcode} : OpAt is k op ↔ i.opcode = op := by
  simp [OpAt, hi]

omit ht in
theorem testBefore_succ : TestBefore is (k + 1) ↔ i.opcode = .cmp := by
  simp [TestBefore, OpAt, hi]

omit ht in
theorem headerBefore_succ : HeaderBefore is (k + 1) ↔
    i.opcode = .func ∨ (i.opcode = .param ∧ HeaderBefore is k) := by
  constructor
  · rintro ⟨f, hlt, hf, hparams⟩
    by_cases hk : f = k
    · subst f
      exact .inl ((opAt_iff hi).mp hf)
    · have hparam := (opAt_iff hi).mp (hparams k (by omega) (by omega))
      exact .inr ⟨hparam, f, by omega, hf, fun m hfm hmk => hparams m hfm (by omega)⟩
  · rintro (ho | ⟨ho, f, hlt, hf, hparams⟩)
    · exact ⟨k, by omega, (opAt_iff hi).mpr ho, fun m hkm hmk => by omega⟩
    · refine ⟨f, by omega, hf, fun m hfm hmk => ?_⟩
      by_cases hm : m = k
      · subst m
        exact (opAt_iff hi).mpr ho
      · exact hparams m hfm (by omega)

omit ht hi in
theorem exists_lt_succ {P : Nat → Prop} : (∃ m, m < k + 1 ∧ P m) ↔ (∃ m, m < k ∧ P m) ∨ P k := by
  simp only [Nat.lt_succ_iff_lt_or_eq, or_and_right, exists_or, exists_eq_left]

theorem defined_succ (h : Moves upcoming c i c') (l : Option String) :
    l ∈ c'.defined ↔ ∃ m, m < k + 1 ∧ DefinesAt is m l := by
  have hk : DefinesAt is k l ↔ i.opcode = .label ∧ i.label = l := by
    simp [DefinesAt, hi]
  rw [exists_lt_succ, hk, ← ht.defined, moves_defined h, List.mem_append]
  by_cases ho : i.opcode = .label
  · simp [ho, eq_comm]
  · simp [ho]

theorem awaited_succ (h : Moves upcoming c i c') (l : Option String) : l ∈ c'.awaited ↔
    (∃ m, m < k + 1 ∧ (JumpsAt is m l ∨ BranchesAt is m l)) ∧
      ¬ ∃ m, m < k + 1 ∧ DefinesAt is m l := by
  have hk : DefinesAt is k l ↔ i.opcode = .label ∧ i.label = l := by
    simp [DefinesAt, hi]
  have hjump : (JumpsAt is k l ∨ BranchesAt is k l) ↔
      (i.opcode = .jump ∨ i.opcode.isConditionalJump) ∧ i.label = l := by
    simp [JumpsAt, BranchesAt, hi, or_and_right]
  rw [mem_awaited_of_moves h, ht.awaited, ht.defined, exists_lt_succ, exists_lt_succ, hk, hjump,
    not_or]
  constructor
  · rintro ⟨⟨hnamed, hdef⟩ | ⟨hj, hl, hdef⟩, hlabel⟩
    · exact ⟨.inl hnamed, hdef, hlabel⟩
    · exact ⟨.inr ⟨hj, hl⟩, hdef, hlabel⟩
  · rintro ⟨hnamed | ⟨hj, hl⟩, hdef, hlabel⟩
    · exact ⟨.inl ⟨hnamed, hdef⟩, hlabel⟩
    · exact ⟨.inr ⟨hj, hl, hdef⟩, hlabel⟩

omit ht in
theorem neutral_of_opcode (hl : i.opcode ≠ .label) (he : i.opcode ≠ .endFunc)
    (hf : i.opcode ≠ .func) (hc : i.opcode.isConditionalJump = false) :
    Neutral is k where
  opens := by simp [Opens, OpAt, BranchesAt, hi, hf, hc]
  label := by simp [OpAt, hi, hl]
  endFunc := by simp [OpAt, hi, he]

omit ht hi in
theorem enter_of_header_none {c : Control} (hc : c.header = none) : c.enter = c := by
  rw [enter, hc]

omit ht in
/-- What an instruction does to the open positions whose blocks are open: none, or the instruction's
own on top, or the innermost one gone. -/
theorem unclosed_succ {stack : List Nat} (hs : Unclosed is k stack)
    (hb : c.enter.blocks = stack.map (frame is)) (hd : DistinctBranches is)
    (hfits : ∀ m j, m ≤ k → is[m]? = some j → Fits is m j) (h : Moves is[k + 1]? c i c') :
    ∃ stack', Unclosed is (k + 1) stack' ∧ c'.enter.blocks = stack'.map (frame is) ∧
      (stack' = stack ∨ stack' = k :: stack ∨ ∃ t, stack = t :: stack') := by
  have hneutral (op : Opcode) (ho : i.opcode = op)
      (hop : op ≠ .label ∧ op ≠ .endFunc ∧ op ≠ .func ∧ op.isConditionalJump = false) :
      Neutral is k := by
    subst ho
    obtain ⟨hl, he, hf, hc⟩ := hop
    exact neutral_of_opcode hi hl he hf hc
  cases h with
  | plain ho =>
    have hk : Neutral is k := by
      rcases ho with ho | ho | ⟨op, ho⟩ | ho <;>
        exact hneutral _ ho (by simp [Opcode.isConditionalJump])
    exact ⟨stack, hs.keep hk, by rwa [enter_enter], .inl rfl⟩
  | cmp ho =>
    have hk := hneutral _ ho (by simp [Opcode.isConditionalJump])
    refine ⟨stack, hs.keep hk, ?_, .inl rfl⟩
    rw [enter_of_header_none (by simp)]
    exact hb
  | branch ho _ hdef =>
    have hk : BranchesAt is k i.label := ⟨i, hi, ho, rfl⟩
    refine ⟨k :: stack, hs.push (.inr ⟨i.label, hk⟩), ?_, .inr (.inl rfl)⟩
    rw [enter_of_header_none (by simp [await]), List.map_cons, frame_of_branchesAt hk, ← hb]
  | jump ho =>
    have hk := hneutral _ ho (by simp [Opcode.isConditionalJump])
    refine ⟨stack, hs.keep hk, ?_, .inl rfl⟩
    rw [enter_of_header_none (by simp [await])]
    exact hb
  | jumpClosing ho _ hclose =>
    have hk := hneutral _ ho (by simp [Opcode.isConditionalJump])
    cases hnext : is[k + 1]? with
    | none =>
      rw [hnext] at hclose
      cases hclose
    | some next =>
      simp only [hnext, closesBefore, closes, Bool.and_eq_true, beq_iff_eq] at hclose
      obtain ⟨hlabel, hhead⟩ := hclose
      obtain ⟨rest, hblocks⟩ := List.head?_eq_some_iff.mp hhead
      rw [hblocks] at hb
      obtain ⟨t, stack', rfl, hframe, hrest⟩ := List.map_eq_cons_iff.mp hb.symm
      have hwaits := hs.head_opens.branchesAt_of_frame hframe
      refine ⟨stack', hs.early hk hwaits ⟨next, hnext, hlabel, rfl⟩, ?_, .inr (.inr ⟨t, rfl⟩)⟩
      rw [enter_of_header_none (by simp [await, close]), hrest]
      simp [await, close, hblocks]
  | label ho _ _ hnot =>
    refine ⟨stack, hs.meet hd ⟨i, hi, ho, rfl⟩ fun s hmem hwaits => hnot ?_, ?_, .inl rfl⟩
    · rw [hb, ← frame_of_branchesAt hwaits]
      exact List.mem_map_of_mem hmem
    · rw [enter_of_header_none (by simp [define])]
      exact hb
  | labelClosing ho _ _ hhead =>
    rw [hhead] at hb
    obtain ⟨t, stack', rfl, hframe, hrest⟩ := List.map_eq_cons_iff.mp hb.symm
    have hwaits := hs.head_opens.branchesAt_of_frame hframe
    refine ⟨stack', hs.close hd ⟨i, hi, ho, rfl⟩ hwaits, ?_, .inr (.inr ⟨t, rfl⟩)⟩
    rw [enter_of_header_none (by simp [define, close]), hrest]
    simp [close, define, hhead]
  | func ho =>
    have hframe : frame is k = (.function, i.name) := by simp [frame, hi, ho]
    refine ⟨k :: stack, hs.push (.inl ⟨i, hi, ho⟩), ?_, .inr (.inl rfl)⟩
    rw [List.map_cons, hframe, ← hb]
    rfl
  | @param header ho _ hh =>
    have hblocks : ({ c with header := some { header with params := header.params ++ [i.name] } } :
        Control).enter.blocks = c.enter.blocks := by
      simp [enter, hh]
    have hk := hneutral _ ho (by simp [Opcode.isConditionalJump])
    exact ⟨stack, hs.keep hk, hblocks.trans hb, .inl rfl⟩
  | endFunc ho _ hhead =>
    rw [hhead] at hb
    obtain ⟨t, stack', rfl, hframe, hrest⟩ := List.map_eq_cons_iff.mp hb.symm
    have hfunc := hs.head_opens.func_of_frame (congrArg Prod.fst hframe)
    refine ⟨stack', hs.leave ⟨i, hi, ho⟩ hfunc hfits, ?_, .inr (.inr ⟨t, rfl⟩)⟩
    rw [enter_of_header_none (by simp [close]), hrest]
    simp [close, hhead]

/-- The open blocks after an instruction are the positions open after it. -/
theorem matches_succ (hd : DistinctBranches is)
    (hfits : ∀ m j, m ≤ k → is[m]? = some j → Fits is m j) (h : Moves is[k + 1]? c i c') :
    Matches is (k + 1) c'.enter.blocks := by
  obtain ⟨stack, hs, hb⟩ := matches_iff.mp ht.blocks
  obtain ⟨stack', hs', hb', -⟩ := unclosed_succ hi hs hb hd hfits h
  exact matches_iff.mpr ⟨stack', hs', hb'⟩

theorem tracks_succ (hcomplete : i.isComplete) (hd : DistinctBranches is)
    (hfits : ∀ m j, m ≤ k → is[m]? = some j → Fits is m j) (h : Moves is[k + 1]? c i c') :
    Tracks is (k + 1) c' where
  tested := (moves_tested_isSome h hcomplete).trans (testBefore_succ hi).symm
  header := by
    rw [moves_header_isSome h, headerBefore_succ hi]
    constructor
    · rintro (ho | ho)
      · exact .inl ho
      · exact .inr ⟨ho, (hfits k i le_rfl hi).param ho⟩
    · rintro (ho | ⟨ho, -⟩)
      · exact .inl ho
      · exact .inr ho
  defined := defined_succ ht hi h
  awaited := awaited_succ ht hi h
  blocks := matches_succ ht hi hd hfits h

omit hi in
/-- A label that fits closes the innermost block or none. -/
theorem head_of_innermost (hf : Fits is k i) (ho : i.opcode = .label)
    (hmem : (.branch, i.label) ∈ c.enter.blocks) :
    ∃ rest, c.enter.blocks = (.branch, i.label) :: rest := by
  obtain ⟨stack, hstack, hblocks | ⟨t, rest, l, rfl, hb, hdef, hblocks⟩⟩ := ht.blocks
  · rw [hblocks] at hmem
    obtain ⟨s, hs, hframe⟩ := List.mem_map.mp hmem
    have hopen := (hstack.mem s).mp hs
    have hb := hopen.2.1.branchesAt_of_frame hframe
    cases stack with
    | nil => cases hs
    | cons t rest =>
      have hts := hf.innermost ho s hopen hb t hstack.head_open
      have hst := hstack.le_head hopen
      obtain rfl : s = t := by omega
      exact ⟨rest.map (frame is), by rw [hblocks, List.map_cons, hframe]⟩
  · -- The branch that waits for the label is closed already.
    exfalso
    rw [hblocks] at hmem
    obtain ⟨s, hs, hframe⟩ := List.mem_map.mp hmem
    have hopen := (hstack.mem s).mp (List.mem_cons_of_mem t hs)
    have hts := hf.innermost ho s hopen (hopen.2.1.branchesAt_of_frame hframe) t hstack.head_open
    have hlt := List.rel_of_pairwise_cons hstack.sorted hs
    omega

/-- An instruction that fits at its position can be performed. -/
theorem moves_of_fits (hf : Fits is k i) (upcoming : Option Instruction) :
    ∃ c', Moves upcoming c i c' := by
  have huntested (hc : i.opcode.isConditionalJump = false) : c.tested = none := by
    rw [← Option.not_isSome_iff_eq_none, ht.tested, ← hf.tested, hc]
    exact Bool.false_ne_true
  have hfresh (ho : i.opcode.isConditionalJump ∨ i.opcode = .label) : i.label ∉ c.defined := by
    rw [ht.defined]
    rintro ⟨m, hm, hdef⟩
    exact hf.fresh ho m hm hdef
  have hbranch (ho : i.opcode.isConditionalJump) : ∃ c', Moves upcoming c i c' := by
    obtain ⟨test, htest⟩ := Option.isSome_iff_exists.mp (ht.tested.mpr (hf.tested.mp ho))
    exact ⟨_, .branch ho htest (hfresh (.inl ho))⟩
  cases hop : i.opcode with
  | decl => exact ⟨_, .plain (.inl hop) (huntested (by rw [hop]; rfl))⟩
  | mov => exact ⟨_, .plain (.inr (.inl hop)) (huntested (by rw [hop]; rfl))⟩
  | binary op => exact ⟨_, .plain (.inr (.inr (.inl ⟨op, hop⟩))) (huntested (by rw [hop]; rfl))⟩
  | ret => exact ⟨_, .plain (.inr (.inr (.inr hop))) (huntested (by rw [hop]; rfl))⟩
  | cmp => exact ⟨_, .cmp hop (huntested (by rw [hop]; rfl))⟩
  | jumpIfFalse => exact hbranch (by rw [hop]; rfl)
  | jumpIfTrue => exact hbranch (by rw [hop]; rfl)
  | jump =>
    cases hclose : c.enter.closesBefore upcoming with
    | false => exact ⟨_, .jump hop (huntested (by rw [hop]; rfl)) hclose⟩
    | true => exact ⟨_, .jumpClosing hop (huntested (by rw [hop]; rfl)) hclose⟩
  | label =>
    have hnew := hfresh (.inr hop)
    by_cases hmem : (.branch, i.label) ∈ c.enter.blocks
    · obtain ⟨rest, hhead⟩ := head_of_innermost ht hf hop hmem
      exact ⟨_, .labelClosing hop (huntested (by rw [hop]; rfl)) hnew hhead⟩
    · exact ⟨_, .label hop (huntested (by rw [hop]; rfl)) hnew hmem⟩
  | func =>
    obtain ⟨stack, hstack, hblocks⟩ := ht.exact_of_opcode hi (by simp [hop])
    refine ⟨_, .func hop (huntested (by rw [hop]; rfl)) fun b hb => ?_⟩
    rw [hblocks] at hb
    obtain ⟨s, hs, rfl⟩ := List.mem_map.mp hb
    have hopen := (hstack.mem s).mp hs
    cases hkind : (frame is s).1 with
    | branch => rfl
    | function => exact absurd (hopen.2.1.func_of_frame hkind) (hf.outside hop s hopen)
  | param =>
    obtain ⟨header, hh⟩ := Option.isSome_iff_exists.mp (ht.header.mpr (hf.param hop))
    exact ⟨_, .param hop (huntested (by rw [hop]; rfl)) hh⟩
  | endFunc =>
    obtain ⟨stack, hstack, hblocks⟩ := ht.exact_of_opcode hi (by simp [hop])
    obtain ⟨s, hs, hfunc, hlast⟩ := hf.leaves hop
    cases stack with
    | nil => cases (hstack.mem s).mpr hs
    | cons t rest =>
      have hst := hstack.le_head hs
      have hts := hlast t hstack.head_open
      obtain rfl : s = t := by omega
      have hhead : c.enter.blocks = (.function, (frame is s).2) :: rest.map (frame is) := by
        rw [hblocks, List.map_cons, ← frame_of_func hfunc]
      exact ⟨_, .endFunc hop (huntested (by rw [hop]; rfl)) hhead⟩

end Step

section Run

variable (hcomplete : ∀ i ∈ is, i.isComplete) (hd : DistinctBranches is)
include hcomplete hd

private theorem upcoming_eq {pre rest : List Instruction} (h : pre ++ i :: rest = is) :
    is[pre.length]? = some i ∧ (rest ++ []).head? = is[pre.length + 1]? := by
  subst h
  constructor
  · simp
  · rw [List.append_nil, List.head?_eq_getElem?, List.getElem?_append_right (by omega)]
    simp

/-- Along a trace every instruction fits, and the machine keeps track of the position. -/
theorem fits_of_trace {rest : List Instruction} (h : Trace [] c rest c') (pre : List Instruction)
    (his : pre ++ rest = is) (ht : Tracks is pre.length c)
    (hfits : ∀ m j, m < pre.length → is[m]? = some j → Fits is m j) :
    (∀ m j, is[m]? = some j → Fits is m j) ∧ Tracks is is.length c' := by
  induction h generalizing pre with
  | nil =>
    rw [List.append_nil] at his
    subst his
    exact ⟨fun m j hj => hfits m j (lt_length_of_getElem? hj) hj, ht⟩
  | @cons c c₁ c₂ i rest move _ ih =>
    obtain ⟨hi, hnext⟩ := upcoming_eq hcomplete hd his
    rw [hnext] at move
    have hmem : i ∈ is := List.mem_of_getElem? hi
    have hfit := fits_of_moves ht hi hd move
    have hfits' (m : Nat) (j : Instruction) (hm : m ≤ pre.length) (hj : is[m]? = some j) :
        Fits is m j := by
      by_cases hlt : m < pre.length
      · exact hfits m j hlt hj
      · obtain rfl : m = pre.length := by omega
        cases hi.symm.trans hj
        exact hfit
    have hlength : (pre ++ [i]).length = pre.length + 1 := by simp
    refine ih (pre ++ [i]) (by rw [← his]; simp) ?_ ?_
    · rw [hlength]
      exact tracks_succ ht hi (hcomplete i hmem) hd hfits' move
    · intro m j hm hj
      exact hfits' m j (by omega) hj

theorem trace_of_fits (hfits : ∀ m j, is[m]? = some j → Fits is m j) {rest : List Instruction}
    (pre : List Instruction) (his : pre ++ rest = is) (ht : Tracks is pre.length c) :
    ∃ c', Trace [] c rest c' := by
  induction rest generalizing pre c with
  | nil => exact ⟨c, .nil c⟩
  | cons i rest ih =>
    obtain ⟨hi, hnext⟩ := upcoming_eq hcomplete hd his
    obtain ⟨c₁, hmove⟩ := moves_of_fits ht hi (hfits _ i hi) is[pre.length + 1]?
    have hmem : i ∈ is := List.mem_of_getElem? hi
    have ht₁ := tracks_succ ht hi (hcomplete i hmem) hd (fun m j _ hj => hfits m j hj) hmove
    have hlength : (pre ++ [i]).length = pre.length + 1 := by simp
    obtain ⟨c', htrace⟩ := ih (pre ++ [i]) (by rw [← his]; simp) (hlength ▸ ht₁)
    exact ⟨c', .cons (hnext ▸ hmove) htrace⟩

omit hcomplete hd in
theorem Tracks.settled_iff (h : Tracks is is.length c) :
    (c.enter.blocks = [] ∧ c.awaited = []) ↔ (∀ s, ¬ OpenAt is is.length s) ∧
      ∀ k l, JumpsAt is k l ∨ BranchesAt is k l → ∃ m, DefinesAt is m l := by
  have hbound {m : Nat} {l : Option String} (hm : DefinesAt is m l) : m < is.length :=
    hm.opAt.lt_length
  have hblocks : c.enter.blocks = [] ↔ ∀ s, ¬ OpenAt is is.length s := by
    obtain ⟨stack, hstack, hblocks⟩ := h.blocks.exact fun ho => absurd ho.lt_length (lt_irrefl _)
    rw [hblocks, List.map_eq_nil_iff, List.eq_nil_iff_forall_not_mem]
    simp only [hstack.mem]
  have hnamed {k : Nat} {l : Option String} (hk : JumpsAt is k l ∨ BranchesAt is k l) :
      k < is.length := by
    rcases hk with ⟨i, hi, -⟩ | ⟨i, hi, -⟩ <;> exact lt_length_of_getElem? hi
  have hawaited : c.awaited = [] ↔
      ∀ k l, JumpsAt is k l ∨ BranchesAt is k l → ∃ m, DefinesAt is m l := by
    rw [List.eq_nil_iff_forall_not_mem]
    simp only [h.awaited, not_and, not_not]
    constructor
    · intro hall k l hk
      obtain ⟨m, -, hm⟩ := hall l ⟨k, hnamed hk, hk⟩
      exact ⟨m, hm⟩
    · rintro hall l ⟨k, -, hk⟩
      obtain ⟨m, hm⟩ := hall k l hk
      exact ⟨m, hbound hm, hm⟩
  rw [hblocks, hawaited]

theorem fits_of_trace_start (h : Trace [] {} is c) :
    (∀ m j, is[m]? = some j → Fits is m j) ∧ Tracks is is.length c := by
  refine fits_of_trace hcomplete hd h [] rfl tracks_zero ?_
  intro m j hm
  exact absurd hm (Nat.not_lt_zero m)

/-- The machine gets through exactly the well structured streams. -/
theorem trace_iff_wellStructured :
    (∃ c, Trace [] {} is c ∧ c.enter.blocks = [] ∧ c.awaited = []) ↔ WellStructured is := by
  constructor
  · rintro ⟨c, htrace, hsettled⟩
    obtain ⟨hfits, ht⟩ := fits_of_trace_start hcomplete hd htrace
    obtain ⟨hend, hdefined⟩ := ht.settled_iff.mp hsettled
    exact wellStructured_of_fits hfits hend fun k l hj => hdefined k l (.inl hj)
  · intro hw
    have hfits (m : Nat) (j : Instruction) (hj : is[m]? = some j) : Fits is m j :=
      fits_of_wellStructured hw hd hj
    obtain ⟨c, htrace⟩ := trace_of_fits hcomplete hd hfits [] rfl tracks_zero
    obtain ⟨-, ht⟩ := fits_of_trace_start hcomplete hd htrace
    refine ⟨c, htrace, ht.settled_iff.mpr ⟨fun s => not_openAt_length hw, ?_⟩⟩
    rintro k l (hj | hb)
    · exact hw.jumps k l hj
    · obtain ⟨⟨m, -, hm⟩, -⟩ := hw.forward k l hb
      exact ⟨m, hm⟩

end Run

end Sil.Streams
