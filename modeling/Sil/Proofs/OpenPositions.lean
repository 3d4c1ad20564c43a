import Mathlib
import Sil.Proofs.EmissionRun
import Sil.Proofs.StreamAcceptance

/-!
Which branches and functions are open at each position of a stream. A stream pushes and pops
positions as the emission opens and closes blocks, whatever the fields of its instructions; a branch
may be closed one instruction early, by a jump in front of its label. In a stream that is accepted
the positions that are open at a line are exactly those whose span encloses it.
-/
namespace Sil

namespace Emission
open EmissionState Control Streams

variable {b : Backend} {s s' t : EmissionState} {i : Instruction} {upcoming : Option Instruction}

theorem Enters.control_eq (h : Enters s t) : t.control = s.control.enter := by
  cases h with
  | nothing hnone =>
    have hheader : s.control.header = none := hnone
    rw [enter_of_header_none hheader]
  | @function header hsome =>
    have hheader : s.control.header = some header := hsome
    rw [Control.enter, hheader]
    exact control_openBlock { s with header := none } _ _ _

/-- An instruction that lists no parameter moves the control part, whether or not its fields are
complete. -/
theorem Performs.moves {c : Control} (h : Performs b upcoming t i s') (hparam : i.opcode ≠ .param)
    (hc : t.control = c.enter) (htested : t.tested = none ∨ i.opcode.isConditionalJump = true) :
    Moves upcoming c i s'.control := by
  have htest : c.tested = t.tested := by
    rw [← enter_tested, ← hc]
    rfl
  have hdefined : c.defined = t.definedLabels := by
    rw [← enter_defined, ← hc]
    rfl
  have huntested (hnot : i.opcode.isConditionalJump = false) : c.tested = none := by
    rw [htest]
    simpa [hnot] using htested
  cases h with
  | declareUntyped _ ho | declareTyped _ ho =>
    rw [control_writeStatement]
    exact hc ▸ .plain (.inl ho) (huntested (by rw [ho]; rfl))
  | declareAgain _ ho => exact hc ▸ .plain (.inl ho) (huntested (by rw [ho]; rfl))
  | mov ho _ hreads =>
    rw [control_writeStatement, control_noteUse, control_noteReads hreads, hc]
    exact .plain (.inr (.inl ho)) (huntested (by rw [ho]; rfl))
  | binary ho _ hreads =>
    rw [control_writeStatement, control_noteUse, control_noteReads hreads, hc]
    exact .plain (.inr (.inr (.inl ⟨_, ho⟩))) (huntested (by rw [ho]; rfl))
  | ret ho hreads =>
    rw [control_writeStatement, control_noteReads hreads, hc]
    exact .plain (.inr (.inr (.inr ho))) (huntested (by rw [ho]; rfl))
  | @cmp u test rest ho hoperands hreads =>
    have hcontrol : ({ u with tested := some test } : EmissionState).control =
        { c.enter with tested := i.operands.head? } := by
      rw [hoperands, ← hc, ← control_noteReads hreads]
      rfl
    rw [hcontrol]
    exact .cmp ho (huntested (by rw [ho]; rfl))
  | @branch test ho htestedSome hnew =>
    rw [control_openBlock]
    show Moves upcoming c i { t.control.await i.label with
      tested := none, blocks := (.branch, i.label) :: t.control.blocks }
    rw [hc]
    exact .branch ho (htest.trans htestedSome) (hdefined ▸ hnew)
  | jump ho hopen =>
    show Moves upcoming c i (t.control.await i.label)
    rw [hc] at hopen ⊢
    exact .jump ho (huntested (by rw [ho]; rfl)) hopen
  | jumpClosing ho hclose =>
    rw [control_closeBlock]
    show Moves upcoming c i (t.control.await i.label).close
    rw [hc] at hclose ⊢
    exact .jumpClosing ho (huntested (by rw [ho]; rfl)) hclose
  | label ho hnew hopen =>
    show Moves upcoming c i (t.control.define i.label)
    rw [hc] at hopen ⊢
    exact .label ho (huntested (by rw [ho]; rfl)) (hdefined ▸ hnew) hopen
  | labelClosing ho hnew hclose =>
    show Moves upcoming c i ((t.closeBlock b).control.define i.label)
    rw [control_closeBlock]
    rw [hc] at hclose ⊢
    obtain ⟨rest, hblocks⟩ := List.head?_eq_some_iff.mp (beq_iff_eq.mp hclose)
    exact .labelClosing ho (huntested (by rw [ho]; rfl)) (hdefined ▸ hnew) hblocks
  | func ho hout =>
    show Moves upcoming c i { t.control with header := some { name := i.name } }
    rw [inFunction_eq, hc] at hout
    rw [hc]
    refine .func ho (huntested (by rw [ho]; rfl)) fun block hblock => ?_
    have hkind := List.any_eq_false.mp hout block hblock
    cases hk : block.1 with
    | branch => rfl
    | function => simp [hk] at hkind
  | param ho => exact absurd ho hparam
  | @endFunc block rest ho hblocks hkind =>
    have hhead : c.enter.blocks = (.function, block.label) :: rest.map fun o =>
        (o.kind, o.label) := by
      rw [← hc, ← hkind]
      show t.blocks.map _ = _
      rw [hblocks]
      rfl
    rw [control_closeBlock, hc]
    exact .endFunc ho (huntested (by rw [ho]; rfl)) hhead

theorem Performs.of_param (h : Performs b upcoming s i s') (hparam : i.opcode = .param) :
    ∃ header, s.header = some header ∧ s' = { s with
      header := some { header with params := header.params ++ [i.name] }
      declared := (Name.ofOption i.name).addTo s.declared } := by
  cases h with
  | param _ hheader => exact ⟨_, hheader, rfl⟩
  | branch ho => simp [hparam, Opcode.isConditionalJump] at ho
  | declareUntyped _ ho | declareTyped _ ho | declareAgain _ ho | mov ho | binary ho | cmp ho
  | jump ho | jumpClosing ho | label ho | labelClosing ho | func ho | endFunc ho | ret ho =>
    rw [hparam] at ho
    cases ho

theorem Performs.of_func (h : Performs b upcoming s i s') (hfunc : i.opcode = .func) :
    s' = { s with header := some { name := i.name } } := by
  cases h with
  | func => rfl
  | branch ho => simp [hfunc, Opcode.isConditionalJump] at ho
  | declareUntyped _ ho | declareTyped _ ho | declareAgain _ ho | mov ho | binary ho | cmp ho
  | jump ho | jumpClosing ho | label ho | labelClosing ho | param ho | endFunc ho | ret ho =>
    rw [hfunc] at ho
    cases ho

theorem step_moves (h : step b upcoming s i = .ok s') : Moves upcoming s.control i s'.control := by
  obtain ⟨t, u, henter, htested, hperforms, rfl⟩ := step_cases h
  rcases henter with ⟨hparam, rfl⟩ | ⟨hparam, henters⟩
  · obtain ⟨header, hheader, rfl⟩ := hperforms.of_param hparam
    have hnone : t.tested = none := by simpa [hparam, Opcode.isConditionalJump] using htested
    exact .param hparam hnone hheader
  · exact hperforms.moves hparam henters.control_eq htested

end Emission

namespace Streams
open Control

variable (is : List Instruction)

/-- Whether the innermost of some open positions is a branch to a label. -/
def waitsFor (stack : List Nat) (label : Option String) : Bool :=
  (stack.map (frame is)).head? == some (.branch, label)

/-- What the instruction at a position makes of the positions that are open before it, the innermost
first. A jump in front of the label of the innermost branch closes it early. -/
def shift (k : Nat) (i : Instruction) (stack : List Nat) : List Nat :=
  match i.opcode with
  | .func | .jumpIfFalse | .jumpIfTrue => k :: stack
  | .endFunc => stack.tail
  | .label => if waitsFor is stack i.label then stack.tail else stack
  | .jump =>
    if is[k + 1]?.any fun next => next.opcode == .label &&
      waitsFor is stack next.label then stack.tail
    else stack
  | _ => stack

/-- The positions that are open before a position, the innermost first. -/
def openBefore : Nat → List Nat
  | 0 => []
  | k + 1 =>
    match is[k]? with
    | some i => shift is k i (openBefore k)
    | none => openBefore k

variable {is} {k p q : Nat} {i : Instruction} {c c' : Control} {stack : List Nat}

theorem openBefore_succ (hi : is[k]? = some i) :
    openBefore is (k + 1) = shift is k i (openBefore is k) := by
  rw [openBefore, hi]

/-- The open blocks are those of the open positions. -/
theorem blocks_shift (hi : is[k]? = some i) (hb : c.enter.blocks = stack.map (frame is))
    (h : Moves is[k + 1]? c i c') : c'.enter.blocks = (shift is k i stack).map (frame is) := by
  have hcloses (label : Option String) : c.enter.closes label = waitsFor is stack label := by
    rw [closes, hb, waitsFor]
  have htail : c.enter.blocks.tail = stack.tail.map (frame is) := by rw [hb, List.map_tail]
  cases h with
  | plain ho =>
    have hsame : shift is k i stack = stack := by
      rcases ho with ho | ho | ⟨op, ho⟩ | ho <;> simp [shift, ho]
    rw [hsame, enter_enter]
    exact hb
  | cmp ho =>
    rw [enter_of_header_none (by simp)]
    simpa [shift, ho] using hb
  | branch ho =>
    have hpush : shift is k i stack = k :: stack := by
      cases hop : i.opcode <;> simp_all [shift, Opcode.isConditionalJump]
    rw [enter_of_header_none (by simp [await]), hpush, List.map_cons,
      frame_of_branchesAt ⟨i, hi, ho, rfl⟩, ← hb]
  | jump ho _ hopen =>
    have hsame : shift is k i stack = stack := by
      cases hnext : is[k + 1]? with
      | none => simp [shift, ho, hnext]
      | some next =>
        rw [hnext] at hopen
        simp only [closesBefore, hcloses] at hopen
        simp [shift, ho, hnext, hopen]
    rw [enter_of_header_none (by simp [await]), hsame]
    exact hb
  | jumpClosing ho _ hclose =>
    have hpop : shift is k i stack = stack.tail := by
      cases hnext : is[k + 1]? with
      | none =>
        rw [hnext] at hclose
        cases hclose
      | some next =>
        rw [hnext] at hclose
        simp only [closesBefore, hcloses] at hclose
        simp [shift, ho, hnext, hclose]
    rw [enter_of_header_none (by simp [await, close]), hpop]
    exact htail
  | label ho _ _ hnot =>
    have hsame : shift is k i stack = stack := by
      have hopen : waitsFor is stack i.label = false := by
        rw [← hcloses]
        by_contra hopen
        have hclose : c.enter.closes i.label = true := by simpa using hopen
        obtain ⟨rest, hblocks⟩ := List.head?_eq_some_iff.mp (beq_iff_eq.mp hclose)
        apply hnot
        rw [hblocks]
        exact List.mem_cons_self
      simp [shift, ho, hopen]
    rw [enter_of_header_none (by simp [define]), hsame]
    exact hb
  | labelClosing ho _ _ hhead =>
    have hpop : shift is k i stack = stack.tail := by
      have hclose : waitsFor is stack i.label = true := by simp [← hcloses, closes, hhead]
      simp [shift, ho, hclose]
    rw [enter_of_header_none (by simp [define, close]), hpop]
    exact htail
  | func ho =>
    have hframe : frame is k = (.function, i.name) := by simp [frame, hi, ho]
    have hpush : shift is k i stack = k :: stack := by simp [shift, ho]
    rw [hpush, List.map_cons, hframe, ← hb]
    rfl
  | @param header ho _ hh =>
    have hblocks : ({ c with header := some { header with params := header.params ++ [i.name] } } :
        Control).enter.blocks = c.enter.blocks := by
      simp [enter, hh]
    have hsame : shift is k i stack = stack := by simp [shift, ho]
    rw [hblocks, hsame]
    exact hb
  | endFunc ho =>
    have hpop : shift is k i stack = stack.tail := by simp [shift, ho]
    rw [enter_of_header_none (by simp [close]), hpop]
    exact htail

variable (is) in
/-- What takes a position off the stack: the end of a function, the label of a branch, or a jump in
front of this label. -/
def ClosesAt (k p : Nat) : Prop :=
  OpAt is k .endFunc ∨
    ∃ label, BranchesAt is p label ∧
    (DefinesAt is k label ∨ OpAt is k .jump ∧ DefinesAt is (k + 1) label)

theorem waitsFor_iff (hstack : ∀ p ∈ stack, Opens is p) {label : Option String} :
    waitsFor is stack label ↔ ∃ p rest, stack = p :: rest ∧ BranchesAt is p label := by
  cases stack with
  | nil => simp [waitsFor]
  | cons p rest =>
    have hp := hstack p List.mem_cons_self
    constructor
    · intro h
      exact ⟨p, rest, rfl, hp.branchesAt_of_frame (by simpa [waitsFor] using h)⟩
    · rintro ⟨_, _, heq, hb⟩
      cases heq
      simp [waitsFor, frame_of_branchesAt hb]

/-- An instruction pushes its position, or leaves the open positions alone, or takes the innermost
off. -/
theorem shift_cases (hi : is[k]? = some i) (hstack : ∀ p ∈ stack, Opens is p) :
    (Opens is k ∧ shift is k i stack = k :: stack) ∨ (¬ Opens is k ∧ shift is k i stack = stack) ∨
      (¬ Opens is k ∧ ∃ p, stack = p :: shift is k i stack ∧ ClosesAt is k p) := by
  have hplain (hf : i.opcode ≠ .func) (hc : i.opcode.isConditionalJump = false) : ¬ Opens is k := by
    simp [Opens, OpAt, BranchesAt, hi, hf, hc]
  cases ho : i.opcode with
  | func => exact .inl ⟨.inl ⟨i, hi, ho⟩, by simp [shift, ho]⟩
  | jumpIfFalse | jumpIfTrue =>
    exact .inl
      ⟨.inr ⟨i.label, i, hi, by simp [ho, Opcode.isConditionalJump], rfl⟩, by simp [shift, ho]⟩
  | endFunc =>
    have hopens := hplain (by simp [ho]) (by simp [ho, Opcode.isConditionalJump])
    cases stack with
    | nil => exact .inr (.inl ⟨hopens, by simp [shift, ho]⟩)
    | cons p rest => exact .inr (.inr ⟨hopens, p, by simp [shift, ho], .inl ⟨i, hi, ho⟩⟩)
  | label =>
    have hopens := hplain (by simp [ho]) (by simp [ho, Opcode.isConditionalJump])
    by_cases hw : waitsFor is stack i.label
    · obtain ⟨p, rest, rfl, hb⟩ := (waitsFor_iff hstack).mp hw
      exact .inr
        (.inr ⟨hopens, p, by simp [shift, ho, hw], .inr ⟨i.label, hb, .inl ⟨i, hi, ho, rfl⟩⟩⟩)
    · exact .inr (.inl ⟨hopens, by simp [shift, ho, hw]⟩)
  | jump =>
    have hopens := hplain (by simp [ho]) (by simp [ho, Opcode.isConditionalJump])
    by_cases hw : is[k + 1]?.any fun next => next.opcode == .label && waitsFor is stack next.label
    · obtain ⟨next, hnext, hboth⟩ := (Option.any_eq_true _ _).mp hw
      simp only [Bool.and_eq_true, beq_iff_eq] at hboth
      obtain ⟨p, rest, rfl, hb⟩ := (waitsFor_iff hstack).mp hboth.2
      refine .inr (.inr ⟨hopens, p, by simp [shift, ho, hw], .inr ⟨next.label, hb, .inr ?_⟩⟩)
      exact ⟨⟨i, hi, ho⟩, next, hnext, hboth.1, rfl⟩
    · exact .inr (.inl ⟨hopens, by simp [shift, ho, hw]⟩)
  | decl | mov | binary | cmp | param | ret =>
    exact .inr
      (.inl ⟨hplain (by simp [ho]) (by simp [ho, Opcode.isConditionalJump]), by simp [shift, ho]⟩)

theorem opens_of_mem_openBefore : ∀ p ∈ openBefore is k, Opens is p := by
  induction k with
  | zero => simp [openBefore]
  | succ k ih =>
    rw [openBefore]
    cases hi : is[k]? with
    | none => exact ih
    | some i =>
      dsimp only
      intro p hp
      obtain ⟨hopens, heq⟩ | ⟨-, heq⟩ | ⟨-, t, heq, -⟩ := shift_cases hi ih
      · rw [heq] at hp
        obtain rfl | hp := List.mem_cons.mp hp
        · exact hopens
        · exact ih p hp
      · exact ih p (heq ▸ hp)
      · exact ih p (heq ▸ List.mem_cons_of_mem t hp)

/-- What a position does to the open positions: it is pushed, or nothing happens, or it takes the
innermost off. -/
theorem openBefore_cases (is : List Instruction) (k : Nat) :
    (Opens is k ∧ openBefore is (k + 1) = k :: openBefore is k) ∨
      (¬ Opens is k ∧ openBefore is (k + 1) = openBefore is k) ∨
      (¬ Opens is k ∧ ∃ p, openBefore is k = p :: openBefore is (k + 1) ∧ ClosesAt is k p) := by
  rw [openBefore]
  cases hi : is[k]? with
  | none => exact .inr (.inl ⟨by simp [Opens, OpAt, BranchesAt, hi], rfl⟩)
  | some i => exact shift_cases hi opens_of_mem_openBefore

theorem lt_of_mem_openBefore : ∀ p ∈ openBefore is k, p < k := by
  induction k with
  | zero => simp [openBefore]
  | succ k ih =>
    intro p hp
    obtain ⟨-, heq⟩ | ⟨-, heq⟩ | ⟨-, t, heq, -⟩ := openBefore_cases is k
    · rw [heq] at hp
      obtain rfl | hp := List.mem_cons.mp hp
      · omega
      · have := ih p hp
        omega
    · have := ih p (heq ▸ hp)
      omega
    · have := ih p (heq ▸ List.mem_cons_of_mem t hp)
      omega

theorem sorted_openBefore : (openBefore is k).Pairwise (· > ·) := by
  induction k with
  | zero => exact List.Pairwise.nil
  | succ k ih =>
    obtain ⟨-, heq⟩ | ⟨-, heq⟩ | ⟨-, t, heq, -⟩ := openBefore_cases is k
    · rw [heq]
      exact List.pairwise_cons.mpr ⟨lt_of_mem_openBefore, ih⟩
    · rwa [heq]
    · rw [heq] at ih
      exact ih.of_cons

/-- What is open outside an open position is what was open before it. -/
theorem openBefore_of_suffix {inner outer : List Nat} (h : openBefore is k = inner ++ p :: outer) :
    outer = openBefore is p := by
  induction k generalizing inner with
  | zero => simp [openBefore] at h
  | succ k ih =>
    obtain ⟨-, heq⟩ | ⟨-, heq⟩ | ⟨-, t, heq, -⟩ := openBefore_cases is k
    · rw [heq] at h
      cases inner with
      | nil =>
        cases h
        rfl
      | cons t inner => exact ih (List.cons.inj h).2
    · exact ih (heq ▸ h)
    · have hlonger : openBefore is k = (t :: inner) ++ p :: outer := by
        rw [heq, h, List.cons_append]
      exact ih hlonger

/-- A position that opens something is the innermost right after it. -/
theorem openBefore_opens (h : Opens is k) : openBefore is (k + 1) = k :: openBefore is k := by
  obtain ⟨-, heq⟩ | ⟨hnot, -⟩ | ⟨hnot, -⟩ := openBefore_cases is k
  · exact heq
  · exact absurd h hnot
  · exact absurd h hnot

theorem mem_openBefore_succ_self (h : Opens is p) : p ∈ openBefore is (p + 1) := by
  rw [openBefore_opens h]
  exact List.mem_cons_self

theorem mem_openBefore_of_succ (h : p ∈ openBefore is (k + 1)) (hne : p ≠ k) :
    p ∈ openBefore is k := by
  obtain ⟨-, heq⟩ | ⟨-, heq⟩ | ⟨-, t, heq, -⟩ := openBefore_cases is k
  · rw [heq] at h
    exact (List.mem_cons.mp h).resolve_left hne
  · rwa [heq] at h
  · rw [heq]
    exact List.mem_cons_of_mem t h

theorem openBefore_endFunc (h : OpAt is k .endFunc) :
    openBefore is (k + 1) = (openBefore is k).tail := by
  obtain ⟨i, hi, ho⟩ := h
  rw [openBefore_succ hi]
  simp [shift, ho]

theorem openBefore_label (hi : is[k]? = some i) (ho : i.opcode = .label)
    (hb : c.blocks = (openBefore is k).map (frame is)) :
    openBefore is (k + 1) =
      if c.closes i.label then (openBefore is k).tail else openBefore is k := by
  rw [openBefore_succ hi, closes, hb]
  simp [shift, ho, waitsFor]

theorem openBefore_jump (hi : is[k]? = some i) (ho : i.opcode = .jump)
    (hb : c.blocks = (openBefore is k).map (frame is)) :
    openBefore is (k + 1) =
      if c.closesBefore is[k + 1]? then (openBefore is k).tail else openBefore is k := by
  rw [openBefore_succ hi]
  cases hnext : is[k + 1]? with
  | none => simp [shift, ho, hnext, closesBefore]
  | some next => simp [shift, ho, hnext, closesBefore, closes, hb, waitsFor]

section Blocks

variable (hb : c.blocks = (openBefore is k).map (frame is))
include hb

theorem exists_innermost (hne : c.blocks ≠ []) :
    ∃ p, openBefore is k = p :: (openBefore is k).tail := by
  cases hstack : openBefore is k with
  | nil =>
    rw [hstack] at hb
    exact absurd hb hne
  | cons p rest => exact ⟨p, rfl⟩

omit hb in
theorem blocks_ne_nil_of_closes {label : Option String} (h : c.closes label) : c.blocks ≠ [] := by
  intro hnil
  simp [closes, hnil] at h

/-- A label of no open branch closes nothing, one of the innermost branch takes it off. -/
theorem openBefore_meet (hi : is[k]? = some i) (ho : i.opcode = .label)
    (hopen : (.branch, i.label) ∉ c.blocks) : openBefore is (k + 1) = openBefore is k := by
  have hnot : c.closes i.label = false := by
    by_contra hclose
    have hhead : c.closes i.label = true := by simpa using hclose
    exact hopen (List.mem_of_mem_head? (beq_iff_eq.mp hhead))
  rw [openBefore_label hi ho hb, hnot]
  rfl

theorem openBefore_close (hi : is[k]? = some i) (ho : i.opcode = .label)
    (hclose : c.closes i.label) :
    ∃ p, openBefore is k = p :: openBefore is (k + 1) := by
  rw [openBefore_label hi ho hb, if_pos hclose]
  exact exists_innermost hb (blocks_ne_nil_of_closes hclose)

theorem openBefore_closeEarly (hi : is[k]? = some i) (ho : i.opcode = .jump)
    (hclose : c.closesBefore is[k + 1]?) : ∃ p, openBefore is k = p :: openBefore is (k + 1) := by
  rw [openBefore_jump hi ho hb, if_pos hclose]
  cases hnext : is[k + 1]? with
  | none =>
    rw [hnext] at hclose
    cases hclose
  | some next =>
    rw [hnext, closesBefore, Bool.and_eq_true] at hclose
    exact exists_innermost hb (blocks_ne_nil_of_closes hclose.2)

theorem openBefore_leave (hi : is[k]? = some i) (ho : i.opcode = .endFunc) (hne : c.blocks ≠ []) :
    ∃ p, openBefore is k = p :: openBefore is (k + 1) := by
  rw [openBefore_endFunc ⟨i, hi, ho⟩]
  exact exists_innermost hb hne

end Blocks

variable (is) in
/-- What makes the open positions brackets: functions do not nest and are ended when they are
innermost, labels are defined once, and nothing is open at the end. -/
structure Bracketed : Prop where
  func : ∀ k, OpAt is k .func → ∀ p ∈ openBefore is k, ¬ OpAt is p .func
  endFunc : ∀ k, OpAt is k .endFunc → ∃ p rest, openBefore is k = p :: rest ∧ OpAt is p .func
  once : ∀ k m label, DefinesAt is k label → DefinesAt is m label → k = m
  closed : openBefore is is.length = []

namespace Bracketed

/-- While a function is open no other one starts and none ends. -/
theorem function_undisturbed (h : Bracketed is) (hp : p ∈ openBefore is k) (hf : OpAt is p .func) :
    ∀ m, p < m → m < k → ¬ OpAt is m .func ∧ ¬ OpAt is m .endFunc := by
  induction k with
  | zero => cases hp
  | succ k ih =>
    intro m hpm hmk
    have hpk : p ∈ openBefore is k := mem_openBefore_of_succ hp (by omega)
    by_cases hm : m < k
    · exact ih hpk m hpm hm
    · obtain rfl : m = k := by omega
      refine ⟨fun hfunc => h.func m hfunc p hpk hf, fun hend => ?_⟩
      -- The function that ends is the innermost position, and `p` lies outside of it.
      obtain ⟨t, rest, heq, ht⟩ := h.endFunc m hend
      have hsorted : (t :: rest).Pairwise (· > ·) := heq ▸ sorted_openBefore
      rw [openBefore_endFunc hend, heq] at hp
      have hpt : p < t := List.rel_of_pairwise_cons hsorted hp
      have htm : t < m := lt_of_mem_openBefore t (heq ▸ List.mem_cons_self)
      exact (ih hpk t hpt htm).1 ht

/-- What is taken off the stack ends there, or at the label right after it. -/
theorem span_of_popped (h : Bracketed is) (hp : p ∈ openBefore is k)
    (hnext : p ∉ openBefore is (k + 1)) :
    Span is p k ∨ (OpAt is k .jump ∧ Span is p (k + 1)) := by
  have hlt := lt_of_mem_openBefore p hp
  obtain ⟨-, heq⟩ | ⟨-, heq⟩ | ⟨-, t, heq, hcloses⟩ := openBefore_cases is k
  · exact absurd (heq ▸ List.mem_cons_of_mem k hp) hnext
  · exact absurd (heq ▸ hp) hnext
  · have hpt : p = t := by
      rw [heq] at hp
      exact (List.mem_cons.mp hp).resolve_right hnext
    subst hpt
    obtain hend | ⟨label, hb, hlabel | ⟨hjump, hlabel⟩⟩ := hcloses
    · obtain ⟨t, rest, heq', ht⟩ := h.endFunc k hend
      obtain rfl : t = p := by
        rw [heq] at heq'
        exact (List.cons.inj heq').1.symm
      have hquiet := h.function_undisturbed hp ht
      refine .inl (.inr ⟨ht, k - (t + 1), ?_, by omega⟩)
      have hshift (m : Nat) (hm : m < k - (t + 1)) := hquiet (t + 1 + m) (by omega) (by omega)
      apply matchingEnd_of_first
      · intro m hm hfunc
        exact (hshift m hm).1 (opAt_drop.mp hfunc)
      · intro m hm hendm
        exact (hshift m hm).2 (opAt_drop.mp hendm)
      · rw [opAt_drop]
        have hpos : t + 1 + (k - (t + 1)) = k := by omega
        rwa [hpos]
    · exact .inl (.inl ⟨hlt, label, hb, hlabel⟩)
    · exact .inr ⟨hjump, .inl ⟨by omega, label, hb, hlabel⟩⟩

theorem span_unique (h : Bracketed is) {q' : Nat} (hq : Span is p q) (hq' : Span is p q') :
    q = q' := by
  obtain ⟨-, label, hb, hdef⟩ | hf := hq
  · exact h.once q q' label hdef (hq'.branch hb).2
  · exact hf.unique (hq'.function hf.1)

/-- What is open is taken off later. -/
theorem exists_popped (h : Bracketed is) (hp : p ∈ openBefore is k) (hk : k ≤ is.length) :
    ∃ m, k ≤ m ∧ p ∈ openBefore is m ∧ p ∉ openBefore is (m + 1) := by
  by_contra hnone
  push Not at hnone
  have hstays : p ∈ openBefore is is.length :=
    Nat.le_induction hp (fun m hkm hm => hnone m hkm hm) is.length hk
  rw [h.closed] at hstays
  cases hstays

/-- What is not open any more was taken off before. -/
theorem exists_popped_before (hopens : Opens is p) (hpk : p < k) (hp : p ∉ openBefore is k) :
    ∃ m, p < m ∧ m < k ∧ p ∈ openBefore is m ∧ p ∉ openBefore is (m + 1) := by
  by_contra hnone
  push Not at hnone
  refine hp
    (Nat.le_induction (m := p + 1) (P := fun m _ => m ≤ k → p ∈ openBefore is m) ?_ ?_ k hpk le_rfl)
  · intro _
    exact mem_openBefore_succ_self hopens
  · intro m hpm hm hmk
    exact hnone m (by omega) (by omega) (hm (by omega))

end Bracketed

section Around

variable (is)

instance (k : Nat) (op : Opcode) : Decidable (OpAt is k op) :=
  decidable_of_iff (is[k]?.any (·.opcode == op)) (by simp [OpAt, Option.any_eq_true])

theorem branchSpan_iff {p q : Nat} : BranchSpan is p q ↔ p < q ∧
    is[p]?.any fun i => i.opcode.isConditionalJump &&
      is[q]?.any fun j => j.opcode == .label && j.label == i.label := by
  simp only [Option.any_eq_true, Bool.and_eq_true, beq_iff_eq]
  constructor
  · rintro ⟨hlt, label, ⟨i, hi, hb, rfl⟩, j, hj, ho, hl⟩
    exact ⟨hlt, i, hi, hb, j, hj, ho, hl⟩
  · rintro ⟨hlt, i, hi, hb, j, hj, ho, hl⟩
    exact ⟨hlt, i.label, ⟨i, hi, hb, rfl⟩, j, hj, ho, hl⟩

theorem functionSpan_iff {p q : Nat} : FunctionSpan is p q ↔
    OpAt is p .func ∧ p < q ∧ matchingEnd 0 (is.drop (p + 1)) = some (q - (p + 1)) := by
  constructor
  · rintro ⟨hf, d, hd, rfl⟩
    exact ⟨hf, by omega, by rw [hd, Nat.add_sub_cancel_left]⟩
  · rintro ⟨hf, hlt, hd⟩
    exact ⟨hf, q - (p + 1), hd, by omega⟩

instance (p q : Nat) : Decidable (BranchSpan is p q) := decidable_of_iff _ (branchSpan_iff is).symm

instance (p q : Nat) : Decidable (FunctionSpan is p q) :=
  decidable_of_iff _ (functionSpan_iff is).symm

instance (p q : Nat) : Decidable (Span is p q) := inferInstanceAs (Decidable (_ ∨ _))

/-- The branches with their labels that a position lies strictly inside. -/
def branchesAround (k : Nat) : Finset (Nat × Nat) :=
  (Finset.range is.length ×ˢ Finset.range is.length).filter fun s =>
    BranchSpan is s.1 s.2 ∧ s.1 < k ∧ k < s.2

def functionsAround (k : Nat) : Finset (Nat × Nat) :=
  (Finset.range is.length ×ˢ Finset.range is.length).filter fun s =>
    FunctionSpan is s.1 s.2 ∧ s.1 < k ∧ k < s.2

def around (k : Nat) : Finset (Nat × Nat) := branchesAround is k ∪ functionsAround is k

/-- The positions that are open where the line of an instruction stands: a label stands outside of
what it closes. -/
def enclosing (k : Nat) : List Nat :=
  if OpAt is k .label then openBefore is (k + 1) else openBefore is k

end Around

theorem mem_branchesAround {s : Nat × Nat} :
    s ∈ branchesAround is k ↔ BranchSpan is s.1 s.2 ∧ s.1 < k ∧ k < s.2 := by
  rw [branchesAround, Finset.mem_filter, Finset.mem_product, Finset.mem_range, Finset.mem_range]
  refine ⟨And.right, fun hs => ⟨?_, hs⟩⟩
  obtain ⟨hlt, label, -, hdef⟩ := hs.1
  have := hdef.opAt.lt_length
  omega

theorem mem_functionsAround {s : Nat × Nat} :
    s ∈ functionsAround is k ↔ FunctionSpan is s.1 s.2 ∧ s.1 < k ∧ k < s.2 := by
  rw [functionsAround, Finset.mem_filter, Finset.mem_product, Finset.mem_range, Finset.mem_range]
  refine ⟨And.right, fun hs => ⟨?_, hs⟩⟩
  have hlt := hs.1.lt
  have := hs.1.opAt.lt_length
  omega

theorem mem_around {s : Nat × Nat} : s ∈ around is k ↔ Span is s.1 s.2 ∧ s.1 < k ∧ k < s.2 := by
  rw [around, Finset.mem_union, mem_branchesAround, mem_functionsAround, ← or_and_right]
  rfl

/-- No span is both that of a branch and that of a function. -/
theorem card_around_eq_add :
    (around is k).card = (branchesAround is k).card + (functionsAround is k).card := by
  apply Finset.card_union_of_disjoint
  rw [Finset.disjoint_left]
  intro s hbranch hfunction
  obtain ⟨-, label, hb, -⟩ := (mem_branchesAround.mp hbranch).1
  exact hb.not_func (mem_functionsAround.mp hfunction).1.1

namespace Bracketed

/-- What is open before a position ends there or later. -/
theorem exists_span_of_mem (h : Bracketed is) (hp : p ∈ openBefore is k) (hk : k ≤ is.length) :
    ∃ q, Span is p q ∧ k ≤ q := by
  obtain ⟨m, hkm, hpm, hpop⟩ := h.exists_popped hp hk
  obtain hspan | ⟨-, hspan⟩ := h.span_of_popped hpm hpop
  · exact ⟨m, hspan, hkm⟩
  · exact ⟨m + 1, hspan, by omega⟩

/-- What is not open before a position has ended, or a jump has closed it in front of its label. -/
theorem ended_of_not_mem (h : Bracketed is) (hspan : Span is p q) (hpk : p < k)
    (hp : p ∉ openBefore is k) : q < k ∨ (q = k ∧ OpAt is (k - 1) .jump) := by
  obtain ⟨m, hpm, hmk, hmem, hpop⟩ := exists_popped_before hspan.opens hpk hp
  obtain hspan' | ⟨hjump, hspan'⟩ := h.span_of_popped hmem hpop
  · have hq := h.span_unique hspan hspan'
    exact .inl (by omega)
  · have hq := h.span_unique hspan hspan'
    by_cases hlast : m + 1 = k
    · exact .inr ⟨by omega, by rwa [← hlast]⟩
    · exact .inl (by omega)

/-- The positions that are open at a line are those whose span encloses it. -/
theorem mem_enclosing_iff (h : Bracketed is) (hk : k < is.length) (hend : ¬ OpAt is k .endFunc) :
    p ∈ enclosing is k ↔ ∃ q, (p, q) ∈ around is k := by
  simp only [mem_around]
  unfold enclosing
  split
  · rename_i hlabel
    constructor
    · intro hp
      have hne : p ≠ k := by
        rintro rfl
        obtain ⟨i, hi, ho⟩ := hlabel
        exact not_opens_of_definesAt ⟨i, hi, ho, rfl⟩ (opens_of_mem_openBefore p hp)
      have hlt := lt_of_mem_openBefore p hp
      obtain ⟨q, hspan, hq⟩ := h.exists_span_of_mem hp hk
      exact ⟨q, hspan, by omega, hq⟩
    · rintro ⟨q, hspan, hpk, hkq⟩
      by_contra hp
      obtain hq | ⟨-, hjump⟩ := h.ended_of_not_mem hspan (by omega) hp
      · omega
      · cases opAt_unique hlabel hjump
  · rename_i hlabel
    constructor
    · intro hp
      have hlt := lt_of_mem_openBefore p hp
      obtain ⟨q, hspan, hq⟩ := h.exists_span_of_mem hp hk.le
      have hne : q ≠ k := by
        rintro rfl
        obtain h' | h' := hspan.opAt_end
        · exact hlabel h'
        · exact hend h'
      exact ⟨q, hspan, hlt, by omega⟩
    · rintro ⟨q, hspan, hpk, hkq⟩
      by_contra hp
      obtain hq | ⟨hq, -⟩ := h.ended_of_not_mem hspan hpk hp
      · omega
      · omega

theorem sorted_enclosing : (enclosing is k).Pairwise (· > ·) := by
  unfold enclosing
  split <;> exact sorted_openBefore

/-- As many positions are open at a line as spans lie around it. -/
theorem card_around (h : Bracketed is) (hk : k < is.length) (hend : ¬ OpAt is k .endFunc) :
    (around is k).card = (enclosing is k).length := by
  have himage : (around is k).image Prod.fst = (enclosing is k).toFinset := by
    ext p
    simp [h.mem_enclosing_iff hk hend]
  have hinj : Set.InjOn Prod.fst (around is k : Set (Nat × Nat)) := by
    rintro ⟨p, q⟩ hs ⟨p', q'⟩ hs' rfl
    have hq := h.span_unique (mem_around.mp hs).1 (mem_around.mp hs').1
    exact Prod.ext rfl hq
  have hnodup : (enclosing is k).Nodup := sorted_enclosing.imp fun hlt => ne_of_gt hlt
  rw [← Finset.card_image_of_injOn hinj, himage, List.toFinset_card_of_nodup hnodup]

end Bracketed

variable (is) in
/-- The positions whose branch or function ends at a position, the innermost first. -/
def ending (k : Nat) : List Nat := (List.range k).reverse.filter fun p => Span is p k

variable (is) in
def popped (k : Nat) : List Nat := (openBefore is k).filter (· ∉ openBefore is (k + 1))

variable (is) in
/-- What was closed in front of the label at a position already. -/
def closedEarly : Nat → List Nat
  | 0 => []
  | k + 1 => if OpAt is k .jump then popped is k else []

theorem mem_ending : p ∈ ending is k ↔ Span is p k := by
  simp only [ending, List.mem_filter, List.mem_reverse, List.mem_range, decide_eq_true_eq]
  exact ⟨And.right, fun h => ⟨h.lt, h⟩⟩

theorem sorted_ending : (ending is k).Pairwise (· > ·) := by
  refine List.Pairwise.filter _ ?_
  rw [List.pairwise_reverse]
  exact List.pairwise_lt_range

theorem mem_popped : p ∈ popped is k ↔ p ∈ openBefore is k ∧ p ∉ openBefore is (k + 1) := by
  simp [popped]

theorem sorted_popped : (popped is k).Pairwise (· > ·) := List.Pairwise.filter _ sorted_openBefore

theorem popped_of_cons (h : openBefore is k = p :: openBefore is (k + 1)) : popped is k = [p] := by
  have hsorted : (p :: openBefore is (k + 1)).Pairwise (· > ·) := h ▸ sorted_openBefore
  have hp : p ∉ openBefore is (k + 1) := by
    intro hmem
    have := List.rel_of_pairwise_cons hsorted hmem
    omega
  rw [popped, h, List.filter_cons_of_pos (by simpa using hp)]
  congr 1
  simp

theorem popped_of_subset (h : openBefore is k ⊆ openBefore is (k + 1)) : popped is k = [] := by
  rw [popped, List.filter_eq_nil_iff]
  intro p hp
  simpa using h hp

/-- What was closed early lies further in than anything that is still open. -/
theorem lt_of_mem_closedEarly (hp : p ∈ closedEarly is k) (hq : q ∈ openBefore is k) : q < p := by
  cases k with
  | zero => cases hp
  | succ k =>
    rw [closedEarly] at hp
    split at hp
    · obtain ⟨hmem, hgone⟩ := mem_popped.mp hp
      obtain ⟨-, heq⟩ | ⟨-, heq⟩ | ⟨-, t, heq, -⟩ := openBefore_cases is k
      · exact absurd (heq ▸ List.mem_cons_of_mem k hmem) hgone
      · exact absurd (heq ▸ hmem) hgone
      · have hsorted : (t :: openBefore is (k + 1)).Pairwise (· > ·) := heq ▸ sorted_openBefore
        obtain rfl : p = t := by
          rw [heq] at hmem
          exact (List.mem_cons.mp hmem).resolve_right hgone
        exact List.rel_of_pairwise_cons hsorted hq
    · cases hp

theorem sorted_closedEarly : (closedEarly is k).Pairwise (· > ·) := by
  cases k with
  | zero => exact List.Pairwise.nil
  | succ k =>
    rw [closedEarly]
    split
    · exact sorted_popped
    · exact List.Pairwise.nil

theorem ending_eq_nil (hlabel : ¬ OpAt is k .label) (hend : ¬ OpAt is k .endFunc) :
    ending is k = [] := by
  rw [List.eq_nil_iff_forall_not_mem]
  intro p hp
  obtain h | h := (mem_ending.mp hp).opAt_end
  · exact hlabel h
  · exact hend h

namespace Bracketed

theorem span_of_mem_closedEarly (h : Bracketed is) (hp : p ∈ closedEarly is k) : Span is p k := by
  cases k with
  | zero => cases hp
  | succ k =>
    rw [closedEarly] at hp
    split at hp
    · rename_i hjump
      obtain ⟨hmem, hgone⟩ := mem_popped.mp hp
      obtain hspan | ⟨-, hspan⟩ := h.span_of_popped hmem hgone
      · obtain hend | hend := hspan.opAt_end
        · cases opAt_unique hjump hend
        · cases opAt_unique hjump hend
      · exact hspan
    · cases hp

/-- What ends at a position was closed in front of it, or is taken off there. -/
theorem ending_eq (h : Bracketed is) (hjump : ¬ OpAt is k .jump) :
    ending is k = closedEarly is k ++ popped is k := by
  apply eq_of_descending sorted_ending
  · refine List.pairwise_append.mpr ⟨sorted_closedEarly, sorted_popped, fun p hp q hq => ?_⟩
    exact lt_of_mem_closedEarly hp (mem_popped.mp hq).1
  intro p
  rw [mem_ending, List.mem_append, mem_popped]
  constructor
  · intro hspan
    have hlength : k < is.length := by
      obtain hend | hend := hspan.opAt_end
      · exact hend.lt_length
      · exact hend.lt_length
    by_cases hmem : p ∈ openBefore is k
    · refine .inr ⟨hmem, fun hstays => ?_⟩
      obtain ⟨q, hq, hle⟩ := h.exists_span_of_mem hstays hlength
      have := h.span_unique hspan hq
      omega
    · obtain ⟨m, -, hmk, hpm, hpop⟩ := exists_popped_before hspan.opens hspan.lt hmem
      obtain hm | ⟨hm, hnext⟩ := h.span_of_popped hpm hpop
      · have := h.span_unique hspan hm
        omega
      · obtain rfl : k = m + 1 := h.span_unique hspan hnext
        rw [closedEarly, if_pos hm]
        exact .inl (mem_popped.mpr ⟨hpm, hpop⟩)
  · rintro (hp | ⟨hmem, hgone⟩)
    · exact h.span_of_mem_closedEarly hp
    · exact (h.span_of_popped hmem hgone).resolve_right fun hj => hjump hj.1

end Bracketed

end Streams

namespace Emission
open EmissionState Control Streams

variable {b : Backend} {s t : EmissionState} {i : Instruction} {is : List Instruction} {k : Nat}

/-- The blocks that are open after a prefix are those of the positions that are open. -/
theorem blocks_after (hk : k ≤ is.length) (h : after b (initial b) is k = .ok t) :
    t.control.enter.blocks = (openBefore is k).map (frame is) := by
  refine after_invariant (P := fun k t => t.control.enter.blocks = (openBefore is k).map (frame is))
    rfl ?_ hk h
  intro k i t t' hi ht hstep
  rw [openBefore_succ hi]
  exact blocks_shift hi ht (step_moves hstep)

theorem mem_defined_after (hk : k ≤ is.length) (h : after b (initial b) is k = .ok t)
    (label : Option String) : label ∈ t.control.defined ↔ ∃ m, m < k ∧ DefinesAt is m label := by
  refine after_invariant
    (P := fun k t => label ∈ t.control.defined ↔ ∃ m, m < k ∧ DefinesAt is m label) ?_ ?_ hk h
  · simp [EmissionState.control, initial]
  · intro k i t t' hi ht hstep
    have hdefines : DefinesAt is k label ↔ i.opcode = .label ∧ i.label = label := by
      simp [DefinesAt, hi]
    rw [exists_lt_succ, hdefines, ← ht, moves_defined (step_moves hstep), List.mem_append]
    by_cases ho : i.opcode = .label
    · simp [ho, eq_comm]
    · simp [ho]

/-- The step at a position of a stream that is accepted. -/
theorem exists_step (h : emit b is = .ok s) (hi : is[k]? = some i) :
    ∃ t t', after b (initial b) is k = .ok t ∧ step b is[k + 1]? t i = .ok t' := by
  have hrun : run b (initial b) is = .ok s := run_eq_after.trans (after_length_of_emit h).1
  have hk : k < is.length := (List.getElem?_eq_some_iff.mp hi).1
  obtain ⟨t', ht'⟩ := exists_after hrun (k := k + 1) hk
  rw [after_succ hi] at ht'
  obtain ⟨t, ht, hstep⟩ := bind_eq_ok.mp ht'
  exact ⟨t, t', ht, hstep⟩

theorem not_definesAt_of_lt {m : Nat} {label : Option String} (h : emit b is = .ok s)
    (hk : DefinesAt is k label) (hmk : m < k) : ¬ DefinesAt is m label := by
  intro hm
  obtain ⟨i, hi, ho, rfl⟩ := hk
  obtain ⟨t, t', ht, hstep⟩ := exists_step h hi
  have hle : k ≤ is.length := (List.getElem?_eq_some_iff.mp hi).1.le
  exact (moves_label (step_moves hstep) ho).1 ((mem_defined_after hle ht i.label).mpr ⟨m, hmk, hm⟩)

/-- The open positions of a stream that is accepted are brackets. -/
theorem bracketed_of_emit (h : emit b is = .ok s) : Bracketed is where
  func k hk p hp hfunc := by
    obtain ⟨i, hi, ho⟩ := hk
    obtain ⟨t, t', ht, hstep⟩ := exists_step h hi
    have hblocks := blocks_after (List.getElem?_eq_some_iff.mp hi).1.le ht
    have hmem : frame is p ∈ t.control.enter.blocks := by
      rw [hblocks]
      exact List.mem_map_of_mem hp
    have hbranch := (moves_func (step_moves hstep) ho).1 _ hmem
    rw [frame_of_func hfunc] at hbranch
    cases hbranch
  endFunc k hk := by
    obtain ⟨i, hi, ho⟩ := hk
    obtain ⟨t, t', ht, hstep⟩ := exists_step h hi
    have hblocks := blocks_after (List.getElem?_eq_some_iff.mp hi).1.le ht
    obtain ⟨name, rest, hhead, -⟩ := moves_endFunc (step_moves hstep) ho
    rw [hhead] at hblocks
    obtain ⟨p, stack, heq, hframe, -⟩ := List.map_eq_cons_iff.mp hblocks.symm
    have hopens := opens_of_mem_openBefore p (heq ▸ List.mem_cons_self)
    exact ⟨p, stack, heq, hopens.func_of_frame (congrArg Prod.fst hframe)⟩
  once k m label hk hm := by
    rcases Nat.lt_trichotomy k m with hlt | heq | hlt
    · exact absurd hk (not_definesAt_of_lt h hm hlt)
    · exact heq
    · exact absurd hm (not_definesAt_of_lt h hk hlt)
  closed := by
    obtain ⟨hafter, hheader⟩ := after_length_of_emit h
    have hblocks := blocks_after le_rfl hafter
    have hnone : s.control.header = none := hheader
    have hempty : s.control.blocks = [] := by simp [EmissionState.control, (emit_closed h).2.1]
    rw [enter_of_header_none hnone, hempty] at hblocks
    exact List.map_eq_nil_iff.mp hblocks.symm

end Emission
end Sil
