import Mathlib
import Sil.Proofs.LoweredFlow
import Sil.Proofs.Temporaries

/-!
Temporaries are written before they are read. On a walk along the flow of control, a name is
assigned at a position if every walk from the first instruction to it passes a write of the name.
The code of an expression delivers its temporary: whatever flows out of its end carries the name
assigned (`carries_of_expr`); and what reads a temporary stands behind an expression that carries it
(`reads_assigned`).
-/
namespace Sil.Streams
open Set

section

variable (is : List Instruction)

/-- A walk along the flow of control, with the positions that it leaves on its way. -/
inductive Walk (start : Nat) : List Nat → Nat → Prop
  | start : Walk start [] start
  | step {ps : List Nat} {p q : Nat} (h : Walk start ps p) (hflow : Flows is p q) :
      Walk start (ps ++ [p]) q

def WritesAt (k : Nat) (x : String) : Prop := ∃ i, is[k]? = some i ∧ i.dest = some x

/-- Every walk from the first instruction to a position passes a write of the name. -/
def Assigned (p : Nat) (x : String) : Prop := ∀ ps, Walk is 0 ps p → ∃ k ∈ ps, WritesAt is k x

/-- What flows from a range of positions to its end carries the name assigned. -/
def Carries (start stop : Nat) (x : String) : Prop :=
  ∀ q ∈ Ico start stop, Flows is q stop → Assigned is q x ∨ WritesAt is q x

end

variable {is : List Instruction} {start stop p q : Nat} {x : String}

theorem JumpsAt.opAt {label : Option String} (h : JumpsAt is p label) : OpAt is p .jump := by
  obtain ⟨i, hi, ho, -⟩ := h
  exact ⟨i, hi, ho⟩

theorem BranchesAt.not_label {label : Option String} (h : BranchesAt is p label) :
    ¬ OpAt is p .label := by
  rintro ⟨j, hj, hlabel⟩
  obtain ⟨i, hi, ho, -⟩ := h
  cases hi.symm.trans hj
  rw [hlabel] at ho
  cases ho

/-- A name is assigned where all that flows in carries it. -/
theorem Assigned.of_flows (hp : p ≠ 0)
    (h : ∀ q, Flows is q p → Assigned is q x ∨ WritesAt is q x) : Assigned is p x := by
  intro ps hwalk
  cases hwalk with
  | start => exact absurd rfl hp
  | step hwalk hflow =>
    rcases h _ hflow with hassigned | hwrites
    · obtain ⟨k, hk, hwrites⟩ := hassigned _ hwalk
      exact ⟨k, List.mem_append_left _ hk, hwrites⟩
    · exact ⟨_, List.mem_append_right _ (List.mem_singleton_self _), hwrites⟩

/-- What is assigned at the only entry of a piece is assigned throughout it. -/
theorem Assigned.inside (hx : Assigned is start x) (h : SingleEntryExit is start stop)
    (hp : p ∈ Ico start stop) : Assigned is p x := by
  intro ps hwalk
  induction hwalk with
  | start =>
    obtain rfl : start = 0 := Nat.le_zero.mp (mem_Ico.mp hp).1
    exact hx [] .start
  | @step ps q p hwalk hflow ih =>
    by_cases hq : q ∈ Ico start stop
    · obtain ⟨k, hk, hwrites⟩ := ih hq
      exact ⟨k, List.mem_append_left _ hk, hwrites⟩
    · obtain rfl := h.entry q p hflow hq hp
      exact hx _ (.step hwalk hflow)

/-- What flows to the end of a piece comes from the piece, if no label stands there. -/
theorem SingleEntryExit.flows_to_end (h : SingleEntryExit is start stop) (hlt : start < stop)
    (hlabel : ¬ OpAt is stop .label) (hflow : Flows is q stop) : q ∈ Ico start stop := by
  cases hflow with
  | next => exact mem_Ico.mpr (by omega)
  | target _ hto => exact absurd hto.opAt hlabel
  | beyond hspan => exact (h.functions _ _ hspan).mpr (mem_Ico.mpr (by omega))

theorem Carries.assigned (hx : Carries is start stop x) (h : SingleEntryExit is start stop)
    (hlt : start < stop) (hlabel : ¬ OpAt is stop .label) : Assigned is stop x :=
  .of_flows (by omega) fun q hq => hx q (h.flows_to_end hlt hlabel hq) hq

/-- What is assigned at the entry of a piece is assigned at its end. -/
theorem Assigned.through (hx : Assigned is start x) (h : SingleEntryExit is start stop)
    (hle : start ≤ stop) (hlabel : ¬ OpAt is stop .label) : Assigned is stop x := by
  rcases hle.lt_or_eq with hlt | rfl
  · have hcarries : Carries is start stop x := fun q hq _ => .inl (hx.inside h hq)
    exact hcarries.assigned h hlt hlabel
  · exact hx

/-- From one instruction to the next, unless other ways lead there. -/
theorem Assigned.next {op : Opcode} (hop : OpAt is p op) (hend : op ≠ .endFunc)
    (hx : Assigned is p x ∨ WritesAt is p x) (hlabel : ¬ OpAt is (p + 1) .label) :
    Assigned is (p + 1) x := by
  refine .of_flows (by omega) fun q hflow => ?_
  generalize hstop : p + 1 = stop at hflow hlabel
  cases hflow with
  | next =>
    obtain rfl : p = q := by omega
    exact hx
  | target _ hto => exact absurd hto.opAt hlabel
  | beyond hspan =>
    obtain rfl := Nat.succ.inj hstop
    exact absurd (opAt_unique hop hspan.opAt) hend

end Sil.Streams

namespace Sil.Lowering
open Counters Streams Set

/-- Where the pieces of a binary expression stand: its operands up to `m` and up to `n`, then the
operation. -/
structure BinaryAt (s : Segment) (off m n : Nat) (x : String) (lhs rhs : Operand) : Prop where
  left : ∃ u l, Occurs s off u ∧ u.phrase = .expr l lhs ∧ m = off + u.code.length
  right : ∃ v r, Occurs s m v ∧ v.phrase = .expr r rhs ∧ n = m + v.code.length
  store : ∃ i op, s.code[n]? = some i ∧ i.opcode = .binary op ∧ i.operands = [lhs, rhs] ∧
    i.dest = some x

/-- Where the pieces of a logical expression stand: its left operand up to `m`, the test of its
value and the jump past the right operand, which ends before `n`; then the right value is stored, or
the left one, between the labels of the expression. -/
structure LogicalAt (s : Segment) (off m n : Nat) (x : String) (lhs rhs : Operand)
    (short done : Option String) : Prop where
  left : ∃ u l, Occurs s off u ∧ u.phrase = .expr l lhs ∧ m = off + u.code.length
  test : ∃ i, s.code[m]? = some i ∧ i.opcode = .cmp ∧ i.operands = [lhs]
  skip : BranchesAt s.code (m + 1) short
  right : ∃ v r, Occurs s (m + 2) v ∧ v.phrase = .expr r rhs ∧ n = m + 2 + v.code.length
  storeRight : ∃ i, s.code[n]? = some i ∧ i.opcode = .mov ∧ i.operands = [rhs] ∧ i.dest = some x
  leave : JumpsAt s.code (n + 1) done
  meetShort : DefinesAt s.code (n + 2) short
  storeLeft : ∃ i, s.code[n + 3]? = some i ∧ i.opcode = .mov ∧ i.operands = [lhs] ∧ i.dest = some x
  meetDone : DefinesAt s.code (n + 4) done
  target_short : ∀ k, TargetsAt s.code k short → k = m + 1
  target_done : ∀ k, TargetsAt s.code k done → k = n + 1

/-- The instructions of a logical expression behind its operands. -/
def storing (x : String) (lhs rhs : Operand) (short done : String) (loc : Location) :
    List Instruction :=
  [.mov x rhs loc, .jump done loc, .mark short, .mov x lhs loc, .mark done]

theorem getElem?_behind (xs ys tail : List Instruction) (a b : Instruction) (k : Nat) :
    (xs ++ a :: b :: (ys ++ tail))[xs.length + 2 + ys.length + k]? = tail[k]? := by
  have hlength : xs.length + 2 + ys.length + k = (xs ++ a :: b :: ys).length + k := by
    simp only [List.length_append, List.length_cons]
    omega
  have hcode : xs ++ a :: b :: (ys ++ tail) = (xs ++ a :: b :: ys) ++ tail := by simp
  rw [hlength, hcode, List.getElem?_append_right (by omega), Nat.add_sub_cancel_left]

/-- Two pieces of code with two instructions between them, and some behind, by their positions. -/
theorem getElem?_behind_cases {xs ys tail : List Instruction} {a b i : Instruction} {k : Nat}
    (h : (xs ++ a :: b :: (ys ++ tail))[k]? = some i) :
    i ∈ xs ∨ (k = xs.length ∧ i = a) ∨ (k = xs.length + 1 ∧ i = b) ∨ i ∈ ys ∨
      ∃ j, k = xs.length + 2 + ys.length + j ∧ tail[j]? = some i := by
  by_cases hx : k < xs.length
  · rw [List.getElem?_append_left hx] at h
    exact .inl (List.mem_of_getElem? h)
  · rw [List.getElem?_append_right (by omega)] at h
    obtain ⟨k, rfl⟩ := Nat.exists_eq_add_of_le (Nat.le_of_not_lt hx)
    rw [Nat.add_sub_cancel_left] at h
    cases k with
    | zero => exact .inr (.inl ⟨rfl, (Option.some.inj h).symm⟩)
    | succ k =>
      cases k with
      | zero => exact .inr (.inr (.inl ⟨rfl, (Option.some.inj h).symm⟩))
      | succ k =>
        rw [List.getElem?_cons_succ, List.getElem?_cons_succ] at h
        by_cases hy : k < ys.length
        · rw [List.getElem?_append_left hy] at h
          exact .inr (.inr (.inr (.inl (List.mem_of_getElem? h))))
        · rw [List.getElem?_append_right (by omega)] at h
          exact .inr (.inr (.inr (.inr ⟨k - ys.length, by omega, h⟩)))

theorem Lowers.binaryAt {f : Bool} {c c' : Counters} {loc : Option Location} {operator : String}
    {left right : Node} {value : Operand} {code : List Instruction}
    (h : Lowers ⟨f, c, .expr (.binary loc operator left right) value, code, c'⟩) :
    ∃ m n lhs rhs, ∃ x : String, value = .temp x ∧ code.length = n + 1 ∧
      BinaryAt ⟨f, c, .expr (.binary loc operator left right) value, code, c'⟩ 0 m n x lhs rhs := by
  cases h with
  | intro rule parts =>
    have hrule := rule
    cases rule with
    | @binary _ _ c₁ c₂ _ _ op _ _ lhs rhs leftCode rightCode =>
      have hleft : Lowers ⟨f, c, .expr left lhs, leftCode, c₁⟩ := parts _ (by simp)
      have hright : Lowers ⟨f, c₁, .expr right rhs, rightCode, c₂⟩ := parts _ (by simp)
      have hoccursLeft := @Occurs.part _ _ _ _ [] _ _ _ _ hrule parts (.whole hleft)
      have hoccursRight := @Occurs.part _ _ _ _ [.part ⟨f, c, .expr left lhs, leftCode, c₁⟩]
        _ _ _ _ hrule parts (.whole hright)
      refine ⟨leftCode.length, leftCode.length + rightCode.length, lhs, rhs, tempName c₂.temps, rfl,
        by simp [Nat.add_assoc], ?_⟩
      exact {
        left := ⟨_, left, hoccursLeft, rfl, (Nat.zero_add _).symm⟩
        right := ⟨_, right, by simpa using hoccursRight, rfl, rfl⟩
        store := ⟨.binary op (tempName c₂.temps) lhs rhs (loc.getD .unknown), op,
          by simp [← List.append_assoc], rfl, rfl, rfl⟩ }

theorem BinaryAt.shift {s t : Segment} {off m n : Nat} {x : String} {lhs rhs : Operand}
    (h : BinaryAt t 0 m n x lhs rhs) (hs : Occurs s off t) :
    BinaryAt s off (off + m) (off + n) x lhs rhs := by
  obtain ⟨u, l, hu, hphrase, hm⟩ := h.left
  obtain ⟨v, r, hv, hphrase', hn⟩ := h.right
  obtain ⟨i, op, hi, hstore⟩ := h.store
  exact {
    left := ⟨u, l, by simpa using hs.trans hu, hphrase, by omega⟩
    right := ⟨v, r, hs.trans hv, hphrase', by omega⟩
    store := ⟨i, op, by rw [hs.getElem? (lt_length_of_getElem? hi), hi], hstore⟩ }

/-- A jump in the code of a logical expression is one of its own two or goes to a label of an
operand. -/
theorem target_in_logical {xs ys : List Instruction} {skip : Instruction} {x short done : String}
    {lhs rhs : Operand} {loc : Location} {k : Nat} {label : Option String}
    (hxs : ∀ i ∈ xs, i.opcode.isJump → i.label ∈ marks xs)
    (hys : ∀ i ∈ ys, i.opcode.isJump → i.label ∈ marks ys)
    (h : TargetsAt (xs ++ .cmp lhs loc :: skip :: (ys ++ storing x lhs rhs short done loc))
      k label) :
    label ∈ marks xs ∨ (k = xs.length + 1 ∧ label = skip.label) ∨ label ∈ marks ys ∨
      (k = xs.length + 2 + ys.length + 1 ∧ label = some done) := by
  obtain ⟨i, hi, hjump, rfl⟩ := h
  rcases getElem?_behind_cases hi with hi | ⟨-, rfl⟩ | ⟨rfl, rfl⟩ | hi | ⟨j, rfl, hj⟩
  · exact .inl (hxs i hi hjump)
  · cases hjump
  · exact .inr (.inl ⟨rfl, rfl⟩)
  · exact .inr (.inr (.inl (hys i hi hjump)))
  · rcases j with _ | _ | _ | _ | _ | j
    · cases hj
      cases hjump
    · cases hj
      exact .inr (.inr (.inr ⟨rfl, rfl⟩))
    · cases hj
      cases hjump
    · cases hj
      cases hjump
    · cases hj
      cases hjump
    · cases hj

/-- A logical expression has its pieces where they should be. -/
theorem Lowers.logicalAt {f : Bool} {c c' : Counters} {loc : Option Location} {operator : String}
    {left right : Node} {value : Operand} {code : List Instruction}
    (h : Lowers ⟨f, c, .expr (.logical loc operator left right) value, code, c'⟩) :
    ∃ m n lhs rhs short done, ∃ x : String, value = .temp x ∧ code.length = n + 5 ∧
      LogicalAt ⟨f, c, .expr (.logical loc operator left right) value, code, c'⟩ 0 m n x lhs rhs
        short done := by
  cases h with
  | intro rule parts =>
    have hrule := rule
    cases rule with
    | @logical _ _ c₁ _ _ _ skip _ _ lhs rhs leftCode rightCode hskip =>
      have hlabel : (skip (labelName c₁.labels) (loc.getD .unknown)).opcode.isConditionalJump ∧
          (skip (labelName c₁.labels) (loc.getD .unknown)).label = some (labelName c₁.labels) := by
        obtain ⟨-, rfl⟩ | ⟨-, rfl⟩ := shortCut?_eq_some.mp hskip <;> exact ⟨rfl, rfl⟩
      have hleft : Lowers ⟨f, c, .expr left lhs, leftCode, c₁⟩ := parts _ (by simp)
      have hright : Lowers ⟨f, ⟨c₁.temps + 1, c₁.labels + 2⟩, .expr right rhs, rightCode, c'⟩ :=
        parts _ (by simp)
      have hoccursLeft := @Occurs.part _ _ _ _ [] _ _ _ _ hrule parts (.whole hleft)
      have hoccursRight := @Occurs.part _ _ _ _ [.part ⟨f, c, .expr left lhs, leftCode, c₁⟩,
          .own (.cmp lhs (loc.getD .unknown)),
          .own (skip (labelName c₁.labels) (loc.getD .unknown))]
        _ _ _ _ hrule parts (.whole hright)
      have hat := getElem?_behind leftCode rightCode
        (storing (tempName c₁.temps) lhs rhs (labelName c₁.labels) (labelName (c₁.labels + 1))
          (loc.getD .unknown))
        (.cmp lhs (loc.getD .unknown)) (skip (labelName c₁.labels) (loc.getD .unknown))
      have hbelow {n : Nat} (hn : c₁.labels ≤ n) : some (labelName n) ∉ marks leftCode :=
        hleft.not_mem_marks (.inr hn)
      have habove {n : Nat} (hn : n < c₁.labels + 2) : some (labelName n) ∉ marks rightCode :=
        hright.not_mem_marks (.inl hn)
      refine ⟨leftCode.length, leftCode.length + 2 + rightCode.length, lhs, rhs,
        some (labelName c₁.labels), some (labelName (c₁.labels + 1)), tempName c₁.temps,
        rfl, ?_, ?_⟩
      · simp only [codeOf_part, codeOf_own, codeOf_nil, List.length_append, List.length_cons,
          List.length_nil]
        omega
      exact {
        left := ⟨_, left, hoccursLeft, rfl, (Nat.zero_add _).symm⟩
        test := ⟨.cmp lhs (loc.getD .unknown), by simp, rfl, rfl⟩
        skip := ⟨skip (labelName c₁.labels) (loc.getD .unknown), by simp, hlabel⟩
        right := ⟨_, right, by simpa using hoccursRight, rfl, rfl⟩
        storeRight := ⟨_, hat 0, rfl, rfl, rfl⟩
        leave := ⟨_, hat 1, rfl, rfl⟩
        meetShort := ⟨_, hat 2, rfl, rfl⟩
        storeLeft := ⟨_, hat 3, rfl, rfl, rfl⟩
        meetDone := ⟨_, hat 4, rfl, rfl⟩
        target_short := fun k hk => by
          rcases target_in_logical hleft.target_mem_marks hright.target_mem_marks hk with
            hl | ⟨hk, -⟩ | hl | ⟨-, hl⟩
          · exact absurd hl (hbelow le_rfl)
          · exact hk
          · exact absurd hl (habove (by omega))
          · simp at hl
        target_done := fun k hk => by
          rcases target_in_logical hleft.target_mem_marks hright.target_mem_marks hk with
            hl | ⟨-, hl⟩ | hl | ⟨hk, -⟩
          · exact absurd hl (hbelow (by omega))
          · rw [hlabel.2] at hl
            simp at hl
          · exact absurd hl (habove (by omega))
          · exact hk }

/-- The pieces of a logical expression keep their distances in any surroundings. -/
theorem LogicalAt.shift {s t : Segment} {off m n : Nat} {x : String} {lhs rhs : Operand}
    {short done : Option String} (h : LogicalAt t 0 m n x lhs rhs short done)
    (hs : Occurs s off t) :
    LogicalAt s off (off + m) (off + n) x lhs rhs short done := by
  have hat {k : Nat} {i : Instruction} (hi : t.code[k]? = some i) : s.code[off + k]? = some i := by
    rw [hs.getElem? (lt_length_of_getElem? hi), hi]
  -- A label inside of the phrase is the target of jumps inside of it only.
  have htarget {j k : Nat} {label : Option String} (hdef : DefinesAt t.code j label)
      (hk : TargetsAt s.code k label) : ∃ k', k = off + k' ∧ TargetsAt t.code k' label := by
    have hj := hdef.opAt.lt_length
    have hin := mem_Ico.mp (hs.outward k label hk (off + j) (mem_Ico.mpr (by omega))
      ((hs.definesAt_iff hj).mpr hdef))
    obtain ⟨k', rfl⟩ := Nat.exists_eq_add_of_le hin.1
    exact ⟨k', rfl, (hs.targetsAt_iff (by omega)).mp hk⟩
  obtain ⟨u, l, hu, hphrase, hm⟩ := h.left
  obtain ⟨v, r, hv, hphrase', hn⟩ := h.right
  obtain ⟨i₀, hi₀, htest⟩ := h.test
  obtain ⟨i₁, hi₁, hskip⟩ := h.skip
  obtain ⟨i₂, hi₂, hright⟩ := h.storeRight
  obtain ⟨i₃, hi₃, hleave⟩ := h.leave
  obtain ⟨i₄, hi₄, hshort⟩ := h.meetShort
  obtain ⟨i₅, hi₅, hleft⟩ := h.storeLeft
  obtain ⟨i₆, hi₆, hdone⟩ := h.meetDone
  exact {
    left := ⟨u, l, by simpa using hs.trans hu, hphrase, by omega⟩
    test := ⟨i₀, hat hi₀, htest⟩
    skip := ⟨i₁, hat hi₁, hskip⟩
    right := ⟨v, r, hs.trans hv, hphrase', by omega⟩
    storeRight := ⟨i₂, hat hi₂, hright⟩
    leave := ⟨i₃, hat hi₃, hleave⟩
    meetShort := ⟨i₄, hat hi₄, hshort⟩
    storeLeft := ⟨i₅, hat hi₅, hleft⟩
    meetDone := ⟨i₆, hat hi₆, hdone⟩
    target_short := fun k hk => by
      obtain ⟨j, rfl, hj⟩ := htarget h.meetShort hk
      rw [h.target_short j hj]
      rfl
    target_done := fun k hk => by
      obtain ⟨j, rfl, hj⟩ := htarget h.meetDone hk
      rw [h.target_done j hj]
      rfl }

section LogicalFlow

variable {s : Segment} {off m n : Nat} {x : String} {lhs rhs : Operand} {short done : Option String}
  (h : LogicalAt s off m n x lhs rhs short done)
include h

/-- At its last label the temporary of a logical expression is written, whichever way led there. -/
theorem LogicalAt.assigned_done : Assigned s.code (n + 4) x := by
  obtain ⟨i, hi, hmov, -, hdest⟩ := h.storeRight
  obtain ⟨j, hj, hmov', -, hdest'⟩ := h.storeLeft
  refine .of_flows (by omega) fun q hflow => ?_
  generalize hstop : n + 4 = stop at hflow
  cases hflow with
  | next =>
    obtain rfl : q = n + 3 := by omega
    exact .inr ⟨j, hj, hdest'⟩
  | target hfrom hto =>
    subst hstop
    obtain rfl := h.target_done q (hto.unique h.meetDone ▸ hfrom)
    have hjump : ¬ OpAt s.code (n + 1) .label := fun hlabel => by
      cases opAt_unique (JumpsAt.opAt h.leave) hlabel
    exact .inl (.next ⟨i, hi, hmov⟩ (by simp) (.inr ⟨i, hi, hdest⟩) hjump)
  | beyond hspan =>
    obtain rfl := Nat.succ.inj hstop
    cases opAt_unique hspan.opAt ⟨j, hj, hmov'⟩

/-- What is assigned at the test is assigned where the left value is stored. -/
theorem LogicalAt.assigned_storeLeft {y : String} (hy : Assigned s.code m y) :
    Assigned s.code (n + 3) y := by
  obtain ⟨i, hi, hcmp, -⟩ := h.test
  obtain ⟨j, hj, hmov, -⟩ := h.storeLeft
  have hskip : Assigned s.code (m + 1) y := by
    exact .next ⟨i, hi, hcmp⟩ (by simp) (.inl hy) (BranchesAt.not_label h.skip)
  have hshort : Assigned s.code (n + 2) y := by
    refine .of_flows (by omega) fun q hflow => ?_
    generalize hstop : n + 2 = stop at hflow
    cases hflow with
    | next hi hjump =>
      obtain rfl : q = n + 1 := by omega
      exact absurd (opAt_unique ⟨_, hi, rfl⟩ (JumpsAt.opAt h.leave)) hjump
    | target hfrom hto =>
      subst hstop
      obtain rfl := h.target_short q (hto.unique h.meetShort ▸ hfrom)
      exact .inl hskip
    | beyond hspan =>
      obtain rfl := Nat.succ.inj hstop
      cases opAt_unique hspan.opAt (JumpsAt.opAt h.leave)
  refine .next h.meetShort.opAt (by simp) (.inl hshort) fun hlabel => ?_
  cases opAt_unique ⟨j, hj, hmov⟩ hlabel

end LogicalFlow

def StartsUnlabelled (code : List Instruction) : Prop :=
  ∀ i, code.head? = some i → i.opcode ≠ .label

@[simp] theorem startsUnlabelled_nil : StartsUnlabelled [] := by
  simp [StartsUnlabelled]

@[simp] theorem startsUnlabelled_cons {i : Instruction} {is : List Instruction} :
    StartsUnlabelled (i :: is) ↔ i.opcode ≠ .label := by
  simp [StartsUnlabelled]

@[simp] theorem startsUnlabelled_append {xs ys : List Instruction} :
    StartsUnlabelled (xs ++ ys) ↔ StartsUnlabelled xs ∧ (xs = [] → StartsUnlabelled ys) := by
  cases xs <;> simp

theorem expr_startsUnlabelled {t : Segment} (h : Lowers t) {n : Node} {value : Operand}
    (ht : t.phrase = .expr n value) : StartsUnlabelled t.code := by
  induction h generalizing n value with
  | intro rule parts ih =>
    obtain rfl := ht
    replace ih := eachPart_iff (P := fun t => ∀ {n value}, t.phrase = .expr n value →
      StartsUnlabelled t.code) |>.mpr ih
    cases rule with
    | literal | identifier => simp
    | binary =>
      obtain ⟨hleft, hright, -⟩ := ih
      simp [hleft rfl, hright rfl]
    | logical | assignment =>
      obtain ⟨hfirst, -⟩ := ih
      simp [hfirst rfl]

/-- What flows out of a piece flows out of its last instruction, unless that ends a function. -/
theorem flows_out {is : List Instruction} {start stop q : Nat} (h : SingleEntryExit is start stop)
    (hw : WellStructured is) {op : Opcode} (hop : OpAt is (stop - 1) op) (hend : op ≠ .endFunc)
    (hq : q ∈ Ico start stop) (hflow : Flows is q stop) : q = stop - 1 := by
  cases hflow with
  | next => omega
  | target hfrom hto =>
    obtain ⟨m, hm, hdef⟩ := h.inward q hq _ hfrom
    rw [← hw.once stop m _ hto hdef] at hm
    exact absurd hm (by simp)
  | beyond hspan => exact absurd (opAt_unique hop hspan.opAt) hend

/-- The code of an expression whose value is a temporary carries it out. -/
theorem carries_of_expr {s t : Segment} {off : Nat} (hs : Occurs s off t)
    (hw : WellStructured s.code) {n : Node} {x : String} (ht : t.phrase = .expr n (.temp x)) :
    t.code ≠ [] ∧ Carries s.code off (off + t.code.length) x := by
  have hseg := hs.singleEntryExit hw
  obtain ⟨f, c, p, code, c'⟩ := t
  obtain rfl : p = _ := ht
  have hlowers := hs.lowers
  cases n with
  | logical =>
    obtain ⟨m, k, lhs, rhs, short, done, y, hy, hlength, hlogical⟩ := hlowers.logicalAt
    obtain rfl : x = y := by simpa using hy
    replace hlogical := hlogical.shift hs
    dsimp only at hseg ⊢
    have hstop : off + code.length = off + k + 4 + 1 := by omega
    rw [hstop] at hseg ⊢
    refine ⟨List.ne_nil_of_length_eq_add_one hlength, fun q hq hflow => .inl ?_⟩
    obtain rfl := flows_out hseg hw hlogical.meetDone.opAt (by simp) hq hflow
    exact hlogical.assigned_done
  | binary =>
    obtain ⟨m, k, lhs, rhs, y, hy, hlength, hbinary⟩ := hlowers.binaryAt
    obtain rfl : x = y := by simpa using hy
    obtain ⟨i, op, hi, hop, -, hdest⟩ := (hbinary.shift hs).store
    dsimp only at hseg ⊢
    have hstop : off + code.length = off + k + 1 := by omega
    rw [hstop] at hseg ⊢
    refine ⟨List.ne_nil_of_length_eq_add_one hlength, fun q hq hflow => .inr ?_⟩
    obtain rfl := flows_out hseg hw ⟨i, hi, hop⟩ (by simp) hq hflow
    exact ⟨i, hi, hdest⟩
  | literal =>
    cases hlowers with
    | intro rule parts =>
      cases rule with
      | literal h =>
        obtain ⟨spelling, hconst⟩ := literal_eq_ok h
        cases hconst
  | _ =>
    cases hlowers with
    | intro rule parts => cases rule

/-- Behind an expression whose value is a temporary, the temporary is assigned. -/
theorem Occurs.assigned_behind {s t : Segment} {off : Nat} (hs : Occurs s off t)
    (hw : WellStructured s.code) {n : Node} {x : String} (ht : t.phrase = .expr n (.temp x))
    (hlabel : ¬ OpAt s.code (off + t.code.length) .label) :
    Assigned s.code (off + t.code.length) x := by
  obtain ⟨hne, hcarries⟩ := carries_of_expr hs hw ht
  have hpos := List.length_pos_iff.mpr hne
  exact hcarries.assigned (hs.singleEntryExit hw) (by omega) hlabel

/-- The operation of a binary expression reads what its operands have delivered. -/
theorem BinaryAt.assigned {s : Segment} {off m n : Nat} {x y : String} {lhs rhs : Operand}
    (h : BinaryAt s off m n x lhs rhs) (hw : WellStructured s.code)
    (hy : .temp y = lhs ∨ .temp y = rhs) : Assigned s.code n y := by
  obtain ⟨u, l, hu, hleft, rfl⟩ := h.left
  obtain ⟨v, r, hv, hright, rfl⟩ := h.right
  obtain ⟨i, op, hi, hop, -⟩ := h.store
  have hend : ¬ OpAt s.code (off + u.code.length + v.code.length) .label := fun hlabel => by
    cases opAt_unique ⟨i, hi, hop⟩ hlabel
  rcases hy with rfl | rfl
  · -- The right operand does not begin with a label, so it is entered from the left one only.
    have hbetween : ¬ OpAt s.code (off + u.code.length) .label := by
      cases hcode : v.code with
      | nil => simpa [hcode] using hend
      | cons j rest =>
        have hunlabelled := expr_startsUnlabelled hv.lowers hright
        rw [hcode, startsUnlabelled_cons] at hunlabelled
        have hj := hv.getElem? (k := 0) (by simp [hcode])
        rw [Nat.add_zero, hcode, List.getElem?_cons_zero] at hj
        rintro ⟨j', hj', hlabel⟩
        cases hj.symm.trans hj'
        exact hunlabelled hlabel
    exact (hu.assigned_behind hw hleft hbetween).through (hv.singleEntryExit hw) (by omega) hend
  · exact hv.assigned_behind hw hright hend

/-- Every instruction is one that a phrase adds to its parts. -/
theorem Lowers.exists_own {s : Segment} (h : Lowers s) {k : Nat} {i : Instruction}
    (hi : s.code[k]? = some i) : ∃ off f c p pre post c',
      Occurs s off ⟨f, c, p, codeOf (pre ++ .own i :: post), c'⟩ ∧
      Rule f c p (pre ++ .own i :: post) c' ∧ (∀ t, .part t ∈ pre ++ .own i :: post → Lowers t) ∧
      k = off + (codeOf pre).length := by
  induction h generalizing k with
  | @intro f c c' p pieces rule parts ih =>
    rcases getElem?_codeOf hi with ⟨pre, post, rfl, rfl⟩ | ⟨pre, t, post, j, rfl, rfl, hj⟩
    · exact ⟨0, f, c, p, pre, post, c', .whole (.intro rule parts), rule, parts,
        (Nat.zero_add _).symm⟩
    · obtain ⟨off, f, c, p, pre', post', c', hoccurs, hrule, hparts, rfl⟩ := ih t (by simp) hj
      exact ⟨_, f, c, p, pre', post', c', .part rule parts hoccurs, hrule, hparts, by omega⟩

/-- What an instruction that a rule adds reads from a temporary is the value of the part before it,
unless it belongs to an operator. -/
theorem Rule.own_reads {f : Bool} {c c' : Counters} {p : Phrase} {pieces : List Piece}
    (rule : Rule f c p pieces c') : EachOwnAt (fun pre i post => ∀ x, .temp x ∈ i.operands →
      i.opcode ≠ .label ∧ ((∃ pre' v n, pre = pre' ++ [.part v] ∧ v.phrase = .expr n (.temp x)) ∨
        ((∃ loc operator left right value, p = .expr (.binary loc operator left right) value) ∧
          post = []) ∨
        ((∃ loc operator left right value, p = .expr (.logical loc operator left right) value) ∧
          (codeOf post).length = 1))) [] pieces := by
  have quiet {i : Instruction} {Q : Name → Prop} (hi : i.operands = []) :
      ∀ x, .temp x ∈ i.operands → Q x := by
    intro x hx
    rw [hi] at hx
    cases hx
  have follows {pre : List Piece} {v : Segment} {n : Node} {value : Operand} {i : Instruction}
      {Q : Name → Prop} (hv : v.phrase = .expr n value) (hi : i.operands = [value])
      (hop : i.opcode ≠ .label) : ∀ x, .temp x ∈ i.operands → i.opcode ≠ .label ∧
        ((∃ pre' v' n, pre ++ [.part v] = pre' ++ [.part v'] ∧ v'.phrase = .expr n (.temp x)) ∨
          Q x) := by
    intro x hx
    rw [hi] at hx
    obtain rfl := List.mem_singleton.mp hx
    exact ⟨hop, .inl ⟨pre, v, n, rfl, hv⟩⟩
  cases rule with
  | literal | identifier | program | block | declaration | expression | bare | nil | cons | noUpdate
    | someUpdate => trivial
  | declare | ret => exact ⟨quiet rfl, trivial⟩
  | assignment | retValue => exact ⟨follows rfl rfl (by simp), trivial⟩
  | initialise => exact ⟨quiet rfl, follows rfl rfl (by simp), trivial⟩
  | conditional => exact ⟨follows rfl rfl (by simp), quiet rfl, quiet rfl, trivial⟩
  | alternative =>
    exact ⟨follows rfl rfl (by simp), quiet rfl, quiet rfl, quiet rfl, quiet rfl, trivial⟩
  | whileLoop | forLoop =>
    exact ⟨quiet rfl, follows rfl rfl (by simp), quiet rfl, quiet rfl, quiet rfl, trivial⟩
  | endlessLoop => exact ⟨quiet rfl, quiet rfl, quiet rfl, trivial⟩
  | binary => exact ⟨fun x _ => ⟨by simp, .inr (.inl ⟨⟨_, _, _, _, _, rfl⟩, rfl⟩)⟩, trivial⟩
  | logical h =>
    refine ⟨follows rfl rfl (by simp), ?_, follows rfl rfl (by simp), quiet rfl, quiet rfl,
      fun x _ => ⟨by simp, .inr (.inr ⟨⟨_, _, _, _, _, rfl⟩, rfl⟩)⟩, quiet rfl, trivial⟩
    obtain ⟨-, rfl⟩ | ⟨-, rfl⟩ := shortCut?_eq_some.mp h <;> exact quiet rfl
  | function h =>
    refine eachOwnAt_of_eachOwn (Q := fun i => i.operands = []) (fun _ _ _ hi => quiet hi) ?_ []
    refine ⟨rfl, (eachOwn_map_own _ _).mpr ⟨fun i hi => ?_, rfl, trivial⟩⟩
    obtain ⟨loc, name, -, rfl⟩ := parameters_eq_ok h i hi
    rfl

/-- The temporaries of expressions have names that are texts. -/
theorem temp_text {t : Segment} (h : Lowers t) {n : Node} {x : Name}
    (ht : t.phrase = .expr n (.temp x)) : ∃ y : String, x = y := by
  obtain ⟨f, c, p, code, c'⟩ := t
  obtain rfl : p = _ := ht
  rcases value_cases h with ⟨_, _, _, _, -, hv⟩ | ⟨_, -, hv⟩ | ⟨k, -, hv⟩
  · cases hv
  · cases hv
  · exact ⟨tempName k, Operand.temp.inj hv⟩

/-- A temporary that is read is assigned there. -/
theorem reads_assigned {s : Segment} (h : Lowers s) (hw : WellStructured s.code) {k : Nat}
    {i : Instruction} {x : Name} (hi : s.code[k]? = some i) (hx : .temp x ∈ i.operands) :
    ∃ y : String, x = y ∧ Assigned s.code k y := by
  obtain ⟨off, f, c, p, pre, post, c', hoccurs, rule, parts, rfl⟩ := h.exists_own hi
  have hlength : (codeOf (pre ++ .own i :: post)).length =
      (codeOf pre).length + (codeOf post).length + 1 := by
    simp [Nat.add_assoc]
  obtain ⟨hop, hread⟩ := rule.own_reads.get x hx
  rw [List.nil_append] at hread
  rcases hread with ⟨pre', v, n, rfl, hv⟩ | ⟨⟨_, _, left, right, value, rfl⟩, rfl⟩ |
    ⟨⟨_, _, left, right, value, rfl⟩, hpost⟩
  · -- The instruction stands right behind the expression.
    have hpart : Occurs s (off + (codeOf pre').length) v := by
      rw [List.append_assoc] at rule parts hoccurs
      exact hoccurs.trans (.part rule parts (.whole (parts v (by simp))))
    obtain ⟨y, rfl⟩ := temp_text hpart.lowers hv
    have hposition : off + (codeOf (pre' ++ [.part v])).length =
        off + (codeOf pre').length + v.code.length := by
      simp [Nat.add_assoc]
    rw [hposition] at hi ⊢
    refine ⟨y, rfl, hpart.assigned_behind hw hv ?_⟩
    rintro ⟨j, hj, hlabel⟩
    cases hi.symm.trans hj
    exact hop hlabel
  · obtain ⟨m, n, lhs, rhs, z, -, hn, hbinary⟩ := hoccurs.lowers.binaryAt
    replace hbinary := hbinary.shift hoccurs
    obtain rfl : n = (codeOf pre).length := by simpa [hlength, codeOf_nil] using hn.symm
    obtain ⟨j, op, hj, -, hoperands, -⟩ := hbinary.store
    cases hi.symm.trans hj
    rw [hoperands, List.mem_pair] at hx
    have htext : ∃ y : String, x = y := by
      obtain ⟨u, l, hu, hleft, -⟩ := hbinary.left
      obtain ⟨v, r, hv, hright, -⟩ := hbinary.right
      rcases hx with rfl | rfl
      · exact temp_text hu.lowers hleft
      · exact temp_text hv.lowers hright
    obtain ⟨y, rfl⟩ := htext
    exact ⟨y, rfl, hbinary.assigned hw hx⟩
  · obtain ⟨m, n, lhs, rhs, short, done, z, -, hn, hlogical⟩ := hoccurs.lowers.logicalAt
    replace hlogical := hlogical.shift hoccurs
    have hposition : off + (codeOf pre).length = off + n + 3 := by omega
    rw [hposition] at hi ⊢
    obtain ⟨j, hj, -, hoperands, -⟩ := hlogical.storeLeft
    cases hi.symm.trans hj
    rw [hoperands, List.mem_singleton] at hx
    subst hx
    obtain ⟨u, l, hu, hleft, hm⟩ := hlogical.left
    obtain ⟨y, rfl⟩ := temp_text hu.lowers hleft
    obtain ⟨test, htest, hcmp, -⟩ := hlogical.test
    refine ⟨y, rfl, hlogical.assigned_storeLeft ?_⟩
    rw [hm] at htest ⊢
    refine hu.assigned_behind hw hleft fun hlabel => ?_
    cases opAt_unique ⟨test, htest, hcmp⟩ hlabel

end Sil.Lowering
