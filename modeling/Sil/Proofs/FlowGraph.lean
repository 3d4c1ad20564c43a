import Mathlib
import Sil.Proofs.Streams

/-!
The flow of control through a stream: from each instruction to the next, from a jump to its label,
and from the start of a function into its body or past its end. A range of positions whose jumps and
functions are its own is entered at its first position only, and left only for the position after
its last.
-/
/-- Whether an operation may go on at a label. -/
def Sil.Opcode.isJump (op : Opcode) : Bool := op == .jump || op.isConditionalJump

namespace Sil.Streams
open Set

variable (is : List Instruction)

def TargetsAt (k : Nat) (label : Option String) : Prop :=
  ∃ i, is[k]? = some i ∧ i.opcode.isJump ∧ i.label = label

inductive Flows : Nat → Nat → Prop
  | next {p : Nat} {i : Instruction} (hi : is[p]? = some i) (hjump : i.opcode ≠ .jump)
      (hret : i.opcode ≠ .ret) : Flows p (p + 1)
  | target {p q : Nat} {label : Option String} (hp : TargetsAt is p label)
      (hq : DefinesAt is q label) : Flows p q
  | beyond {p q : Nat} (h : FunctionSpan is p q) : Flows p (q + 1)

/-- The positions from `start` to before `stop` are a piece of the stream with one entry and one
exit. -/
structure SingleEntryExit (start stop : Nat) : Prop where
  /-- A jump in it goes to a label in it. -/
  inward : ∀ k ∈ Ico start stop, ∀ label, TargetsAt is k label →
    ∃ m ∈ Ico start stop, DefinesAt is m label
  /-- A jump to a label in it comes from it. -/
  outward : ∀ k label, TargetsAt is k label → ∀ m ∈ Ico start stop, DefinesAt is m label →
    k ∈ Ico start stop
  /-- A function that begins or ends in it lies in it. -/
  functions : ∀ p q, FunctionSpan is p q → (p ∈ Ico start stop ↔ q ∈ Ico start stop)
  entry : ∀ p q, Flows is p q → p ∉ Ico start stop → q ∈ Ico start stop → q = start
  exit : ∀ p q, Flows is p q → p ∈ Ico start stop → q ∉ Ico start stop → q = stop

variable {is} {start stop : Nat}

/-- Where labels are defined once, a range is entered and left as it should be if its jumps and its
functions are its own. -/
theorem SingleEntryExit.of_closed
    (once : ∀ k m label, DefinesAt is k label → DefinesAt is m label → k = m)
    (inward : ∀ k ∈ Ico start stop, ∀ label, TargetsAt is k label →
      ∃ m ∈ Ico start stop, DefinesAt is m label)
    (outward : ∀ k label, TargetsAt is k label → ∀ m ∈ Ico start stop, DefinesAt is m label →
      k ∈ Ico start stop)
    (functions : ∀ p q, FunctionSpan is p q → (p ∈ Ico start stop ↔ q ∈ Ico start stop)) :
    SingleEntryExit is start stop where
  inward := inward
  outward := outward
  functions := functions
  entry p q h hp hq := by
    cases h with
    | next =>
      rw [mem_Ico] at hp hq
      omega
    | target hfrom hto => exact absurd (outward p _ hfrom q hq hto) hp
    | beyond hspan =>
      rw [functions _ _ hspan, mem_Ico] at hp
      rw [mem_Ico] at hq
      omega
  exit p q h hp hq := by
    cases h with
    | next =>
      rw [mem_Ico] at hp hq
      omega
    | target hfrom hto =>
      obtain ⟨m, hm, hdef⟩ := inward p hp _ hfrom
      rw [once q m _ hto hdef] at hq
      exact absurd hm hq
    | beyond hspan =>
      rw [functions _ _ hspan, mem_Ico] at hp
      rw [mem_Ico] at hq
      omega

theorem TargetsAt.not_opAt {k : Nat} {label : Option String} (h : TargetsAt is k label)
    {op : Opcode} (hop : op.isJump = false) :
    ¬ OpAt is k op := by
  rintro ⟨j, hj, rfl⟩
  obtain ⟨i, hi, hjump, -⟩ := h
  cases hi.symm.trans hj
  rw [hop] at hjump
  cases hjump

variable (is) in
/-- Control gets to the positions from `start` to `stop` only by going on from the one before
them. -/
def FallsInto (start stop : Nat) : Prop :=
  ∀ p q, Flows is p q → p ∉ Icc start stop → q ∈ Icc start stop → p + 1 = start ∧ q = start

/-- A piece with one entry and an instruction after it is fallen into, if a conditional jump stands
before it and the instruction after it is no label. -/
theorem SingleEntryExit.fallsInto (h : SingleEntryExit is start stop) {k : Nat}
    {label : Option String} (hk : BranchesAt is k label) (hstart : k + 1 = start)
    (hstop : ¬ OpAt is stop .label) : FallsInto is start stop := by
  intro p q hflow hp hq
  have hp' : p ∉ Ico start stop := fun hin => hp (Ico_subset_Icc_self hin)
  rw [mem_Icc] at hp hq
  cases hflow with
  | next => omega
  | target hfrom hto =>
    have hne : q ≠ stop := by
      rintro rfl
      exact hstop hto.opAt
    exact absurd (h.outward p _ hfrom q (mem_Ico.mpr (by omega)) hto) hp'
  | @beyond e hspan =>
    have hne : e ≠ k := by
      rintro rfl
      exact (Opens.not_span_end (.inr ⟨label, hk⟩)) (.inr hspan)
    have hend : e ∈ Ico start stop := mem_Ico.mpr (by omega)
    exact absurd ((h.functions p e hspan).mpr hend) hp'

theorem matchingEnd_append {depth d : Nat} {xs : List Instruction} (ys : List Instruction)
    (h : matchingEnd depth xs = some d) : matchingEnd depth (xs ++ ys) = some d := by
  induction xs generalizing depth d with
  | nil => cases h
  | cons i rest ih =>
    have hlater {n : Nat} (h : (matchingEnd n rest).map (· + 1) = some d) :
        (matchingEnd n (rest ++ ys)).map (· + 1) = some d := by
      obtain ⟨e, he, rfl⟩ := Option.map_eq_some_iff.mp h
      rw [ih he]
      rfl
    rw [List.cons_append]
    unfold matchingEnd at h ⊢
    split at h
    · exact hlater h
    · exact h
    · exact hlater h
    · exact hlater h

/-- A function stays a function in any surroundings. -/
theorem functionSpan_append {p q : Nat} (xs zs : List Instruction) (h : FunctionSpan is p q) :
    FunctionSpan (xs ++ (is ++ zs)) (xs.length + p) (xs.length + q) := by
  have hp := h.1.lt_length
  obtain ⟨⟨i, hi, ho⟩, d, hd, rfl⟩ := h
  refine ⟨⟨i, ?_, ho⟩, d, ?_, by omega⟩
  · rw [List.getElem?_append_right (by omega), Nat.add_sub_cancel_left,
      List.getElem?_append_left hp, hi]
  · have hdrop : (xs ++ (is ++ zs)).drop (xs.length + p + 1) = is.drop (p + 1) ++ zs := by
      rw [Nat.add_assoc, List.drop_length_add_append, List.drop_append_of_le_length hp]
    rw [hdrop]
    exact matchingEnd_append zs hd

/-- A path that gets into a set of positions passes from outside of it into it. -/
theorem exists_crossing {r : Nat → Nat → Prop} {S : Set Nat} {p q : Nat}
    (h : Relation.ReflTransGen r p q) (hp : p ∉ S) (hq : q ∈ S) :
    ∃ a b, Relation.ReflTransGen r p a ∧ r a b ∧ a ∉ S ∧ b ∈ S ∧ Relation.ReflTransGen r b q := by
  induction h with
  | refl => exact absurd hq hp
  | @tail a b hpath hstep ih =>
    by_cases ha : a ∈ S
    · obtain ⟨x, y, hpx, hxy, hx, hy, hya⟩ := ih ha
      exact ⟨x, y, hpx, hxy, hx, hy, hya.tail hstep⟩
    · exact ⟨a, b, hpath, hstep, ha, hq, .refl⟩

/-- A path into positions that are fallen into passes the instruction before them. -/
theorem FallsInto.path {p q k : Nat} (h : FallsInto is (k + 1) stop)
    (hpath : Relation.ReflTransGen (Flows is) p q) (hp : p ∉ Icc (k + 1) stop)
    (hq : q ∈ Icc (k + 1) stop) :
    Relation.ReflTransGen (Flows is) p k ∧ Relation.ReflTransGen (Flows is) (k + 1) q := by
  obtain ⟨a, b, hpa, hab, ha, hb, hbq⟩ := exists_crossing hpath hp hq
  obtain ⟨hak, rfl⟩ := h a b hab ha hb
  obtain rfl : a = k := by omega
  exact ⟨hpa, hbq⟩

end Sil.Streams
