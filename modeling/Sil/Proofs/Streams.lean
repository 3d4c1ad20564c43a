import Mathlib
import Sil.Instruction

/-!
Positions in a stream of instructions: what stands where, which label ends a branch and which end
closes a function. A stream is well structured when tests and jumps come in pairs, labels are
unique, and branches and functions are nested like brackets.
-/
namespace Sil

/-- How many instructions lie before the end that closes `depth` functions more than open in
between. -/
def matchingEnd : Nat → List Instruction → Option Nat
  | _, [] => none
  | depth, i :: rest =>
    match i.opcode, depth with
    | .func, _ => (matchingEnd (depth + 1) rest).map (· + 1)
    | .endFunc, 0 => some 0
    | .endFunc, depth + 1 => (matchingEnd depth rest).map (· + 1)
    | _, _ => (matchingEnd depth rest).map (· + 1)

namespace Streams

variable (is : List Instruction)

def OpAt (k : Nat) (op : Opcode) : Prop := ∃ i, is[k]? = some i ∧ i.opcode = op

def DefinesAt (k : Nat) (label : Option String) : Prop :=
  ∃ i, is[k]? = some i ∧ i.opcode = .label ∧ i.label = label

def BranchesAt (k : Nat) (label : Option String) : Prop :=
  ∃ i, is[k]? = some i ∧ i.opcode.isConditionalJump ∧ i.label = label

def JumpsAt (k : Nat) (label : Option String) : Prop :=
  ∃ i, is[k]? = some i ∧ i.opcode = .jump ∧ i.label = label

def BranchSpan (p q : Nat) : Prop := p < q ∧ ∃ label, BranchesAt is p label ∧ DefinesAt is q label

def FunctionSpan (p q : Nat) : Prop :=
  OpAt is p .func ∧ ∃ d, matchingEnd 0 (is.drop (p + 1)) = some d ∧ q = p + 1 + d

def Span (p q : Nat) : Prop := BranchSpan is p q ∨ FunctionSpan is p q

def TestBefore (k : Nat) : Prop := ∃ j, k = j + 1 ∧ OpAt is j .cmp

/-- Only parameters lie between a position and the start of a function before it. -/
def HeaderBefore (k : Nat) : Prop :=
  ∃ f, f < k ∧ OpAt is f .func ∧ ∀ m, f < m → m < k → OpAt is m .param

def branchTargets : List (Option String) :=
  (is.filter fun i => i.opcode.isConditionalJump).map (·.label)

def DistinctBranches : Prop :=
  ∀ p q label, BranchesAt is p label → BranchesAt is q label → p = q

end Streams

open Streams

/-- Streams whose branches and functions are nested like brackets. -/
structure WellStructured (is : List Instruction) : Prop where
  /-- A conditional jump comes right after a test. -/
  tested : ∀ k label, BranchesAt is k label → TestBefore is k
  /-- A test comes last or right before a conditional jump. -/
  used : ∀ k, OpAt is k .cmp → k + 1 < is.length → ∃ label, BranchesAt is (k + 1) label
  once : ∀ k m label, DefinesAt is k label → DefinesAt is m label → k = m
  jumps : ∀ k label, JumpsAt is k label → ∃ m, DefinesAt is m label
  /-- The label of a conditional jump is defined later and not earlier. -/
  forward : ∀ k label, BranchesAt is k label →
    (∃ m, k < m ∧ DefinesAt is m label) ∧ ∀ m, m < k → ¬ DefinesAt is m label
  functions : ∀ p, OpAt is p .func → ∃ q, FunctionSpan is p q
  ends : ∀ q, OpAt is q .endFunc → ∃ p, FunctionSpan is p q
  /-- Two spans are disjoint, or one lies in the other. -/
  nested : ∀ p q p' q', Span is p q → Span is p' q' →
    q < p' ∨ q' < p ∨ (p ≤ p' ∧ q' ≤ q) ∨ (p' ≤ p ∧ q ≤ q')
  /-- No function lies in another. -/
  flat : ∀ p q p' q', FunctionSpan is p q → FunctionSpan is p' q' → p = p' ∨ q < p' ∨ q' < p
  params : ∀ k, OpAt is k .param → HeaderBefore is k

namespace Streams

variable {is : List Instruction} {k p q s : Nat} {label : Option String}

theorem opAt_cons_succ {i : Instruction} {op : Opcode} :
    OpAt (i :: is) (k + 1) op ↔ OpAt is k op := by
  simp [OpAt]

theorem opAt_unique {op op' : Opcode} (h : OpAt is k op) (h' : OpAt is k op') : op = op' := by
  obtain ⟨i, hi, rfl⟩ := h
  obtain ⟨j, hj, rfl⟩ := h'
  cases hi.symm.trans hj
  rfl

theorem opAt_drop {op : Opcode} : OpAt (is.drop p) k op ↔ OpAt is (p + k) op := by
  simp [OpAt]

theorem DefinesAt.opAt (h : DefinesAt is k label) : OpAt is k .label := by
  obtain ⟨i, hi, ho, -⟩ := h
  exact ⟨i, hi, ho⟩

theorem DefinesAt.unique {label' : Option String} (h : DefinesAt is k label)
    (h' : DefinesAt is k label') : label = label' := by
  obtain ⟨i, hi, -, rfl⟩ := h
  obtain ⟨j, hj, -, rfl⟩ := h'
  cases hi.symm.trans hj
  rfl

theorem BranchesAt.not_func (h : BranchesAt is k label) : ¬ OpAt is k .func := by
  rintro ⟨j, hj, ho⟩
  obtain ⟨i, hi, hb, -⟩ := h
  cases hi.symm.trans hj
  rw [ho] at hb
  cases hb

theorem BranchesAt.unique {label' : Option String} (h : BranchesAt is k label)
    (h' : BranchesAt is k label') : label = label' := by
  obtain ⟨i, hi, -, rfl⟩ := h
  obtain ⟨j, hj, -, rfl⟩ := h'
  cases hi.symm.trans hj
  rfl

@[simp] theorem branchTargets_nil : branchTargets [] = [] := rfl

@[simp] theorem branchTargets_cons (i : Instruction) (rest : List Instruction) :
    branchTargets (i :: rest) =
      if i.opcode.isConditionalJump then i.label :: branchTargets rest else branchTargets rest := by
  unfold branchTargets
  rw [List.filter_cons]
  split <;> rfl

@[simp] theorem branchTargets_append (xs ys : List Instruction) :
    branchTargets (xs ++ ys) = branchTargets xs ++ branchTargets ys := by
  simp [branchTargets]

theorem distinctBranches_of_nodup (h : (branchTargets is).Nodup) : DistinctBranches is := by
  have hlt {p q : Nat} {label : Option String} (hp : BranchesAt is p label)
      (hq : BranchesAt is q label) : ¬ p < q := by
    intro hpq
    obtain ⟨i, hi, hbi, rfl⟩ := hp
    obtain ⟨j, hj, hbj, hl⟩ := hq
    have hfirst : i.label ∈ branchTargets (is.take q) := by
      have hmem : i ∈ is.take q := List.mem_of_getElem? (List.getElem?_take_of_lt hpq ▸ hi)
      exact List.mem_map_of_mem (List.mem_filter.mpr ⟨hmem, hbi⟩)
    have hsecond : i.label ∈ branchTargets (is.drop q) := by
      have hmem : j ∈ is.drop q := List.mem_of_getElem? (i := 0) (by simpa using hj)
      rw [← hl]
      exact List.mem_map_of_mem (List.mem_filter.mpr ⟨hmem, hbj⟩)
    rw [← List.take_append_drop q is, branchTargets_append] at h
    exact (List.disjoint_of_nodup_append h) hfirst hsecond
  intro p q label hp hq
  have hpq := hlt hp hq
  have hqp := hlt hq hp
  omega

/-- The matching end is an end. -/
theorem matchingEnd_opAt {depth e : Nat} (h : matchingEnd depth is = some e) :
    OpAt is e .endFunc := by
  induction is generalizing depth e with
  | nil => cases h
  | cons i rest ih =>
    have hlater {d : Nat} (h : (matchingEnd d rest).map (· + 1) = some e) :
        OpAt (i :: rest) e .endFunc := by
      obtain ⟨e', he', rfl⟩ := Option.map_eq_some_iff.mp h
      exact opAt_cons_succ.mpr (ih he')
    unfold matchingEnd at h
    split at h
    · exact hlater h
    · rename_i ho
      cases h
      exact ⟨i, rfl, ho⟩
    · exact hlater h
    · exact hlater h

/-- Without functions in between, the first end is the matching one. -/
theorem matchingEnd_of_first {e : Nat} (hfunc : ∀ m, m < e → ¬ OpAt is m .func)
    (hend : ∀ m, m < e → ¬ OpAt is m .endFunc) (he : OpAt is e .endFunc) :
    matchingEnd 0 is = some e := by
  induction is generalizing e with
  | nil =>
    obtain ⟨i, hi, -⟩ := he
    cases hi
  | cons i rest ih =>
    cases e with
    | zero =>
      obtain ⟨j, hj, ho⟩ := he
      cases hj
      simp [matchingEnd, ho]
    | succ e =>
      have hi : i.opcode ≠ .func := fun ho => hfunc 0 (by omega) ⟨i, rfl, ho⟩
      have hi' : i.opcode ≠ .endFunc := fun ho => hend 0 (by omega) ⟨i, rfl, ho⟩
      have hrest : matchingEnd 0 rest = some e := by
        refine ih ?_ ?_ (opAt_cons_succ.mp he)
        · intro m hm ho
          exact hfunc (m + 1) (by omega) (opAt_cons_succ.mpr ho)
        · intro m hm ho
          exact hend (m + 1) (by omega) (opAt_cons_succ.mpr ho)
      unfold matchingEnd
      split
      · rename_i ho
        exact absurd ho hi
      · rename_i ho _
        exact absurd ho hi'
      · rename_i ho _
        exact absurd ho hi'
      · rw [hrest]
        rfl

theorem FunctionSpan.lt (h : FunctionSpan is p q) : p < q := by
  obtain ⟨-, d, -, rfl⟩ := h
  omega

theorem FunctionSpan.opAt (h : FunctionSpan is p q) : OpAt is q .endFunc := by
  obtain ⟨-, d, hd, rfl⟩ := h
  exact opAt_drop.mp (matchingEnd_opAt hd)

theorem FunctionSpan.unique {q' : Nat} (h : FunctionSpan is p q) (h' : FunctionSpan is p q') :
    q = q' := by
  obtain ⟨-, d, hd, rfl⟩ := h
  obtain ⟨-, d', hd', rfl⟩ := h'
  cases hd.symm.trans hd'
  rfl

theorem Span.lt (h : Span is p q) : p < q := by
  obtain h | h := h
  · exact h.1
  · exact h.lt

variable (is) in
def Opens (s : Nat) : Prop := OpAt is s .func ∨ ∃ label, BranchesAt is s label

variable (is) in
/-- A branch or function that starts before a position and ends at it or later, if at all. -/
def OpenAt (k s : Nat) : Prop := s < k ∧ Opens is s ∧ ∀ q, Span is s q → k ≤ q

/-- What is open after an instruction: what it opens, and what was open and does not end there. -/
theorem openAt_succ :
    OpenAt is (k + 1) s ↔ (s = k ∧ Opens is k) ∨ (OpenAt is k s ∧ ¬ Span is s k) := by
  constructor
  · rintro ⟨hlt, hopens, hspan⟩
    by_cases hs : s = k
    · exact .inl ⟨hs, hs ▸ hopens⟩
    · refine .inr ⟨⟨by omega, hopens, fun q hq => ?_⟩, fun hq => ?_⟩
      · have := hspan q hq
        omega
      · have := hspan k hq
        omega
  · rintro (⟨rfl, hopens⟩ | ⟨⟨hlt, hopens, hspan⟩, hk⟩)
    · exact ⟨by omega, hopens, fun q hq => hq.lt⟩
    · refine ⟨by omega, hopens, fun q hq => ?_⟩
      have hle := hspan q hq
      have hne : q ≠ k := by
        rintro rfl
        exact hk hq
      omega

theorem OpenAt.mono {k' : Nat} (h : OpenAt is k s) (hk : k' ≤ k) (hs : s < k') :
    OpenAt is k' s := by
  refine ⟨hs, h.2.1, fun q hq => ?_⟩
  have := h.2.2 q hq
  omega

variable (is) in
/-- What the instruction at a position asks of the stream before it. -/
structure Fits (k : Nat) (i : Instruction) : Prop where
  /-- Conditional jumps, and they only, come right after a test. -/
  tested : i.opcode.isConditionalJump ↔ TestBefore is k
  param : i.opcode = .param → HeaderBefore is k
  fresh : i.opcode.isConditionalJump ∨ i.opcode = .label → ∀ m, m < k → ¬ DefinesAt is m i.label
  /-- A branch that a label ends is the innermost thing open. -/
  innermost : i.opcode = .label → ∀ s, OpenAt is k s → BranchesAt is s i.label →
    ∀ t, OpenAt is k t → t ≤ s
  outside : i.opcode = .func → ∀ s, OpenAt is k s → ¬ OpAt is s .func
  leaves : i.opcode = .endFunc →
    ∃ s, OpenAt is k s ∧ OpAt is s .func ∧ ∀ t, OpenAt is k t → t ≤ s

theorem lt_length_of_getElem? {i : Instruction} (h : is[k]? = some i) : k < is.length :=
  (List.getElem?_eq_some_iff.mp h).1

theorem OpAt.lt_length {op : Opcode} (h : OpAt is k op) : k < is.length := by
  obtain ⟨i, hi, -⟩ := h
  exact lt_length_of_getElem? hi

theorem Span.opAt_end (h : Span is p q) : OpAt is q .label ∨ OpAt is q .endFunc := by
  obtain ⟨-, label, -, hq⟩ | h := h
  · exact .inl hq.opAt
  · exact .inr h.opAt

/-- A span does not end where another one starts. -/
theorem Opens.not_span_end (h : Opens is k) : ¬ Span is p k := by
  intro hspan
  obtain h | ⟨label, i, hi, hb, -⟩ := h
  · obtain h' | h' := hspan.opAt_end <;> cases opAt_unique h h'
  · obtain ⟨j, hj, ho⟩ | ⟨j, hj, ho⟩ := hspan.opAt_end
    · cases hi.symm.trans hj
      rw [ho] at hb
      cases hb
    · cases hi.symm.trans hj
      rw [ho] at hb
      cases hb

theorem Span.opens (h : Span is p q) : Opens is p := by
  obtain ⟨-, label, hp, -⟩ | h := h
  · exact .inr ⟨label, hp⟩
  · exact .inl h.1

theorem Span.function (h : Span is p q) (hp : OpAt is p .func) : FunctionSpan is p q := by
  obtain ⟨-, label, hb, -⟩ | h := h
  · exact absurd hp hb.not_func
  · exact h

theorem Span.branch (h : Span is p q) (hp : BranchesAt is p label) :
    p < q ∧ DefinesAt is q label := by
  obtain ⟨hlt, label', hb, hq⟩ | h := h
  · cases hp.unique hb
    exact ⟨hlt, hq⟩
  · exact absurd h.1 hp.not_func

section WellStructured

variable (hw : WellStructured is) (hd : DistinctBranches is)
include hw

theorem exists_span (h : Opens is s) : ∃ q, Span is s q := by
  obtain h | ⟨label, h⟩ := h
  · obtain ⟨q, hq⟩ := hw.functions s h
    exact ⟨q, .inr hq⟩
  · obtain ⟨m, hm, hdef⟩ := (hw.forward s label h).1
    exact ⟨m, .inl ⟨hm, label, h, hdef⟩⟩

/-- At the end of a well structured stream nothing is open. -/
theorem not_openAt_length : ¬ OpenAt is is.length s := by
  rintro ⟨-, hopens, hlast⟩
  obtain ⟨q, hq⟩ := exists_span hw hopens
  have hle := hlast q hq
  obtain h | h := hq.opAt_end
  · have := h.lt_length
    omega
  · have := h.lt_length
    omega

include hd

theorem span_start_unique {t : Nat} (hs : Span is s k) (ht : Span is t k) : s = t := by
  obtain ⟨-, label, hb, hk⟩ | hf := hs
  · obtain ⟨-, label', hb', hk'⟩ | hf' := ht
    · cases hk.unique hk'
      exact hd s t label hb hb'
    · cases opAt_unique hk.opAt hf'.opAt
  · obtain ⟨-, label', hb', hk'⟩ | hf' := ht
    · cases opAt_unique hk'.opAt hf.opAt
    · have hs := hf.lt
      have ht := hf'.lt
      obtain h | h | h := hw.flat s k t k hf hf'
      · exact h
      · omega
      · omega

/-- What ends at a position is the innermost thing open there. -/
theorem le_of_span {t : Nat} (hs : Span is s k) (ht : OpenAt is k t) : t ≤ s := by
  by_contra hlt
  obtain ⟨q, hq⟩ := exists_span hw ht.2.1
  have hk := ht.2.2 q hq
  have hsk := hs.lt
  have htk := ht.1
  have hne : q ≠ k := by
    rintro rfl
    have := span_start_unique hw hd hs hq
    omega
  obtain h | h | ⟨-, h⟩ | ⟨h, -⟩ := hw.nested s k t q hs hq
  · omega
  · omega
  · omega
  · omega

theorem fits_of_wellStructured {i : Instruction} (hi : is[k]? = some i) : Fits is k i where
  tested := by
    constructor
    · intro hb
      exact hw.tested k i.label ⟨i, hi, hb, rfl⟩
    · rintro ⟨j, rfl, hj⟩
      obtain ⟨label, i', hi', hb, -⟩ := hw.used j hj (lt_length_of_getElem? hi)
      cases hi.symm.trans hi'
      exact hb
  param ho := hw.params k ⟨i, hi, ho⟩
  fresh ho m hm hdef := by
    obtain hb | ho := ho
    · exact (hw.forward k i.label ⟨i, hi, hb, rfl⟩).2 m hm hdef
    · have := hw.once m k i.label hdef ⟨i, hi, ho, rfl⟩
      omega
  innermost ho s hs hb t ht := le_of_span hw hd (.inl ⟨hs.1, i.label, hb, i, hi, ho, rfl⟩) ht
  outside ho s hs hf := by
    obtain ⟨q, hq⟩ := hw.functions s hf
    obtain ⟨q', hq'⟩ := hw.functions k ⟨i, hi, ho⟩
    have hkq := hs.2.2 q (.inr hq)
    have hk := hq'.lt
    have hsk := hs.1
    have hne : q ≠ k := by
      rintro rfl
      exact Opens.not_span_end (.inl ⟨i, hi, ho⟩) (.inr hq)
    obtain h | h | h := hw.flat s q k q' hq hq'
    · omega
    · omega
    · omega
  leaves ho := by
    obtain ⟨f, hf⟩ := hw.ends k ⟨i, hi, ho⟩
    have hopen : OpenAt is k f := by
      refine ⟨hf.lt, .inl hf.1, fun q hq => ?_⟩
      rw [hf.unique (hq.function hf.1)]
    exact ⟨f, hopen, hf.1, fun t ht => le_of_span hw hd (.inr hf) ht⟩

end WellStructured

section FitsBefore

variable (hfits : ∀ m i, m ≤ k → is[m]? = some i → Fits is m i)
include hfits

/-- Inside an open function no function starts. -/
theorem not_func_of_openAt {m : Nat} (hs : OpenAt is k s) (hf : OpAt is s .func) (hsm : s < m)
    (hmk : m ≤ k) : ¬ OpAt is m .func := by
  rintro ⟨i, hi, ho⟩
  exact (hfits m i hmk hi).outside ho s (hs.mono hmk hsm) hf

/-- Inside an open function no function ends. -/
theorem not_endFunc_of_openAt (hs : OpenAt is k s) (hf : OpAt is s .func) (m : Nat) (hsm : s < m)
    (hmk : m < k) : ¬ OpAt is m .endFunc := by
  -- The first end after the start would be the matching one.
  induction m using Nat.strong_induction_on with
  | _ m ih =>
    intro ho
    have hfirst : matchingEnd 0 (is.drop (s + 1)) = some (m - (s + 1)) := by
      refine matchingEnd_of_first ?_ ?_ ?_
      · intro j hj
        rw [opAt_drop]
        exact not_func_of_openAt hfits hs hf (by omega) (by omega)
      · intro j hj
        rw [opAt_drop]
        exact ih (s + 1 + j) (by omega) (by omega) (by omega)
      · rw [opAt_drop]
        convert ho using 1
        omega
    have hspan : Span is s m := .inr ⟨hf, m - (s + 1), hfirst, by omega⟩
    have := hs.2.2 m hspan
    omega

/-- The end that leaves an open function is its matching end. -/
theorem functionSpan_of_openAt (hs : OpenAt is k s) (hf : OpAt is s .func)
    (hk : OpAt is k .endFunc) :
    FunctionSpan is s k := by
  have hsk := hs.1
  refine ⟨hf, k - (s + 1), matchingEnd_of_first ?_ ?_ ?_, by omega⟩
  · intro j hj
    rw [opAt_drop]
    exact not_func_of_openAt hfits hs hf (by omega) (by omega)
  · intro j hj
    rw [opAt_drop]
    exact not_endFunc_of_openAt hfits hs hf (s + 1 + j) (by omega) (by omega)
  · rw [opAt_drop]
    convert hk using 1
    omega

end FitsBefore

section Fits

variable (hfits : ∀ m i, is[m]? = some i → Fits is m i)
include hfits

theorem definesAt_unique {m : Nat} (hk : DefinesAt is k label) (hm : DefinesAt is m label) :
    k = m := by
  have hfresh {a b : Nat} (ha : DefinesAt is a label) (hb : DefinesAt is b label) : ¬ b < a := by
    obtain ⟨i, hi, ho, rfl⟩ := ha
    exact fun hlt => (hfits a i hi).fresh (.inr ho) b hlt hb
  have hkm := hfresh hk hm
  have hmk := hfresh hm hk
  omega

theorem span_end_unique {q' : Nat} (h : Span is p q) (h' : Span is p q') : q = q' := by
  obtain hf | ⟨label, hb⟩ := h.opens
  · exact (h.function hf).unique (h'.function hf)
  · exact definesAt_unique hfits (h.branch hb).2 (h'.branch hb).2

theorem openAt_of_span (h : Span is p q) (hp : p < k) (hk : k ≤ q) : OpenAt is k p := by
  refine ⟨hp, h.opens, fun q' hq' => ?_⟩
  rwa [← span_end_unique hfits h hq']

/-- What ends at a position encloses nothing that is open there. -/
theorem le_of_span_of_fits {t : Nat} (hs : Span is s k) (ht : OpenAt is k t) : t ≤ s := by
  have hopen := openAt_of_span hfits hs hs.lt le_rfl
  obtain ⟨-, label, hb, i, hi, ho, rfl⟩ | hf := hs
  · exact (hfits k i hi).innermost ho s hopen hb t ht
  · obtain ⟨i, hi, ho⟩ := hf.opAt
    obtain ⟨f, hfopen, hffunc, hlast⟩ := (hfits k i hi).leaves ho
    have hle : s ≤ f := hlast s hopen
    have hlt : f < k := hfopen.1
    have heq : f = s := by
      by_contra hne
      exact not_func_of_openAt (fun m i _ => hfits m i) hopen hf.1 (by omega) (by omega) hffunc
    rw [← heq]
    exact hlast t ht

theorem nested_of_lt {p' q' : Nat} (h : Span is p q) (h' : Span is p' q') (hp : p < p') :
    q < p' ∨ q' ≤ q := by
  by_contra hcross
  have hne : q ≠ p' := by
    rintro rfl
    exact h'.opens.not_span_end h
  have hopen : OpenAt is q p' := openAt_of_span hfits h' (by omega) (by omega)
  have := le_of_span_of_fits hfits h hopen
  omega

theorem flat_of_lt {p' q' : Nat} (h : FunctionSpan is p q) (h' : FunctionSpan is p' q')
    (hp : p < p') : q < p' := by
  by_contra hlt
  have hopen : OpenAt is p' p := openAt_of_span hfits (.inr h) hp (by omega)
  exact not_func_of_openAt (fun m i _ => hfits m i) hopen h.1 hp le_rfl h'.1

/-- A stream that fits at every position, leaves nothing open and has the labels of its jumps is
well structured. -/
theorem wellStructured_of_fits (hend : ∀ s, ¬ OpenAt is is.length s)
    (hjumps : ∀ k label, JumpsAt is k label → ∃ m, DefinesAt is m label) : WellStructured is where
  tested k label h := by
    obtain ⟨i, hi, hb, -⟩ := h
    exact (hfits k i hi).tested.mp hb
  used k h hk := by
    have hi : is[k + 1]? = some is[k + 1] := List.getElem?_eq_getElem hk
    exact ⟨_, _, hi, (hfits (k + 1) _ hi).tested.mpr ⟨k, rfl, h⟩, rfl⟩
  once k m label h h' := definesAt_unique hfits h h'
  jumps := hjumps
  forward k label h := by
    constructor
    · have hk : ¬ ∀ q, Span is k q → is.length ≤ q := by
        obtain ⟨i, hi, -⟩ := id h
        exact fun hlast => hend k ⟨lt_length_of_getElem? hi, .inr ⟨label, h⟩, hlast⟩
      push Not at hk
      obtain ⟨q, hq, -⟩ := hk
      exact ⟨q, hq.branch h⟩
    · obtain ⟨i, hi, hb, rfl⟩ := h
      exact (hfits k i hi).fresh (.inl hb)
  functions p h := by
    have hp : ¬ ∀ q, Span is p q → is.length ≤ q :=
      fun hlast => hend p ⟨h.lt_length, .inl h, hlast⟩
    push Not at hp
    obtain ⟨q, hq, -⟩ := hp
    exact ⟨q, hq.function h⟩
  ends q h := by
    obtain ⟨i, hi, ho⟩ := id h
    obtain ⟨s, hs, hf, -⟩ := (hfits q i hi).leaves ho
    exact ⟨s, functionSpan_of_openAt (fun m i _ => hfits m i) hs hf h⟩
  nested p q p' q' h h' := by
    obtain hlt | rfl | hlt := Nat.lt_trichotomy p p'
    · have := nested_of_lt hfits h h' hlt
      omega
    · have := span_end_unique hfits h h'
      omega
    · have := nested_of_lt hfits h' h hlt
      omega
  flat p q p' q' h h' := by
    obtain hlt | rfl | hlt := Nat.lt_trichotomy p p'
    · exact .inr (.inl (flat_of_lt hfits h h' hlt))
    · exact .inl rfl
    · exact .inr (.inr (flat_of_lt hfits h' h hlt))
  params k h := by
    obtain ⟨i, hi, ho⟩ := h
    exact (hfits k i hi).param ho

end Fits

end Streams

end Sil
