import Mathlib
import Sil.Proofs.FlowGraph
import Sil.Proofs.LoweredStructure
import Sil.Proofs.LoweringMeaning

/-!
The phrases inside of a lowered phrase. Each has a segment of the code to itself; the temporaries
and labels that it allocates are numbered between its counters; its jumps go to its own labels, and
no other jump does.
-/
namespace Sil.Lowering
open Counters Streams Set

/-- A whole tree with its code, outside of every function and numbered from zero. -/
def Segment.ofTree (tree : Node) (code : List Instruction) (c : Counters) : Segment :=
  ⟨false, {}, .stmt tree, code, c⟩

theorem lowers_ofTree {limits : Limits} {tree : Node} {code : List Instruction} {c : Counters}
    (h : tree.lowerCounting limits = .ok (code, c)) : Lowers (.ofTree tree code c) :=
  lowers_of_statement tree h

theorem lower_of_lowerCounting {limits : Limits} {tree : Node} {code : List Instruction}
    {c : Counters} (h : tree.lowerCounting limits = .ok (code, c)) :
    tree.lower limits = .ok code :=
  bind_eq_ok.mpr ⟨(code, c), h, rfl⟩

theorem Occurs.lowers {s t : Segment} {k : Nat} (h : Occurs s k t) : Lowers t := by
  induction h with
  | whole h => exact h
  | part _ _ _ ih => exact ih

/-- The parts of a rule use the counters that the rule has for them. -/
theorem Rule.part_counters {f : Bool} {c c' : Counters} {p : Phrase} {pieces : List Piece}
    (rule : Rule f c p pieces c') (parts : EachPart Lowers pieces) :
    EachPart (fun t => c.temps ≤ t.before.temps ∧ t.after.temps ≤ c'.temps ∧
      c.labels ≤ t.before.labels ∧ t.after.labels ≤ c'.labels) pieces := by
  have hle : EachPart (fun t => t.before.temps ≤ t.after.temps ∧ t.before.labels ≤ t.after.labels)
      pieces := eachPart_iff.mpr fun t ht => counters_le (eachPart_iff.mp parts t ht)
  cases rule with
  | function h =>
    refine (eachPart_own _ _).mpr ?_
    simp [EachPart]
  | literal | identifier | declare | ret | nil | noUpdate => trivial
  | _ =>
    simp only [EachPart, and_true] at hle ⊢
    omega

theorem Occurs.counters {s t : Segment} {k : Nat} (h : Occurs s k t) :
    s.before.temps ≤ t.before.temps ∧ t.after.temps ≤ s.after.temps ∧
      s.before.labels ≤ t.before.labels ∧ t.after.labels ≤ s.after.labels := by
  induction h with
  | whole => exact ⟨le_rfl, le_rfl, le_rfl, le_rfl⟩
  | @part f c c' p pre post t u k rule parts _ ih =>
    have hpart := eachPart_iff.mp (rule.part_counters (eachPart_iff.mpr parts)) t (by simp)
    dsimp only
    omega

theorem Occurs.trans {s t u : Segment} {j k : Nat} (h : Occurs s j t) (h' : Occurs t k u) :
    Occurs s (j + k) u := by
  induction h with
  | whole =>
    rw [Nat.zero_add]
    exact h'
  | part rule parts _ ih =>
    rw [Nat.add_assoc]
    exact .part rule parts (ih h')

/-- A phrase inside of a phrase has the instructions at its positions. -/
theorem Occurs.getElem? {s t : Segment} {off : Nat} (h : Occurs s off t) {k : Nat}
    (hk : k < t.code.length) : s.code[off + k]? = t.code[k]? := by
  obtain ⟨pre, post, hcode, rfl⟩ := h.code
  rw [hcode, List.getElem?_append_right (by omega), Nat.add_sub_cancel_left,
    List.getElem?_append_left hk]

theorem mem_marks_iff_exists {code : List Instruction} {label : Option String} :
    label ∈ marks code ↔ ∃ i ∈ code, i.opcode = .label ∧ i.label = label := by
  simp only [marks, List.mem_filterMap]
  constructor
  · rintro ⟨i, hi, h⟩
    split at h
    · rename_i ho
      cases h
      exact ⟨i, hi, ho, rfl⟩
    · cases h
  · rintro ⟨i, hi, ho, rfl⟩
    exact ⟨i, hi, by simp [ho]⟩

/-- A jump that a rule adds goes to a label that the rule adds. -/
theorem Rule.own_target {f : Bool} {c c' : Counters} {p : Phrase} {pieces : List Piece}
    (rule : Rule f c p pieces c') : EachOwn (fun i => i.opcode.isJump →
      ∃ j, .own j ∈ pieces ∧ j.opcode = .label ∧ j.label = i.label) pieces := by
  cases rule with
  | function h =>
    refine ⟨by simp [Opcode.isJump, Opcode.isConditionalJump],
      (eachOwn_map_own _ _).mpr ⟨fun i hi => ?_,
        by simp [EachOwn, Opcode.isJump, Opcode.isConditionalJump]⟩⟩
    obtain ⟨loc, name, -, rfl⟩ := parameters_eq_ok h i hi
    simp [Opcode.isJump, Opcode.isConditionalJump]
  | logical h =>
    obtain ⟨-, rfl⟩ | ⟨-, rfl⟩ := shortCut?_eq_some.mp h <;>
      simp [EachOwn, Opcode.isJump, Opcode.isConditionalJump]
  | _ => simp [EachOwn, Opcode.isJump, Opcode.isConditionalJump]

/-- Pieces whose own jumps go to their own labels, and whose parts keep their jumps to themselves,
make code that keeps its jumps to itself. -/
theorem target_mem_marks {ps : List Piece}
    (hown : ∀ i, .own i ∈ ps → i.opcode.isJump →
      ∃ j, .own j ∈ ps ∧ j.opcode = .label ∧ j.label = i.label)
    (hparts : ∀ t, .part t ∈ ps → ∀ i ∈ t.code, i.opcode.isJump → i.label ∈ marks t.code) :
    ∀ i ∈ codeOf ps, i.opcode.isJump → i.label ∈ marks (codeOf ps) := by
  intro i hi hjump
  rw [mem_marks_iff_exists]
  obtain hi | ⟨t, ht, hi⟩ := mem_codeOf.mp hi
  · obtain ⟨j, hj, hlabel⟩ := hown i hi hjump
    exact ⟨j, mem_codeOf.mpr (.inl hj), hlabel⟩
  · obtain ⟨j, hj, hlabel⟩ := mem_marks_iff_exists.mp (hparts t ht i hi hjump)
    exact ⟨j, mem_codeOf.mpr (.inr ⟨t, ht, hj⟩), hlabel⟩

/-- The jumps of a lowered phrase go to its own labels. -/
theorem Lowers.target_mem_marks {s : Segment} (h : Lowers s) :
    ∀ i ∈ s.code, i.opcode.isJump → i.label ∈ marks s.code := by
  induction h with
  | intro rule parts ih => exact Lowering.target_mem_marks (eachOwn_iff.mp rule.own_target) ih

/-- What a rule adds around one of its parts keeps its jumps to itself. -/
theorem Rule.target_mem_marks {f : Bool} {c c' : Counters} {p : Phrase} {pre post : List Piece}
    {t : Segment} (rule : Rule f c p (pre ++ .part t :: post) c')
    (parts : ∀ v, .part v ∈ pre ++ .part t :: post → Lowers v) :
    ∀ i ∈ codeOf pre ++ codeOf post, i.opcode.isJump →
      i.label ∈ marks (codeOf pre) ++ marks (codeOf post) := by
  rw [← codeOf_append, ← marks_append, ← codeOf_append]
  refine Lowering.target_mem_marks ?_ ?_
  · intro i hi hjump
    have hown := eachOwn_iff.mp rule.own_target i (by simp_all) hjump
    simpa using hown
  · intro v hv
    refine (parts v ?_).target_mem_marks
    rcases List.mem_append.mp hv with hv | hv <;> simp [hv]

section Positions

variable {s t : Segment} {off k : Nat} {label : Option String}

theorem Occurs.le_length (h : Occurs s off t) : off + t.code.length ≤ s.code.length := by
  obtain ⟨pre, post, hcode, rfl⟩ := h.code
  simp only [hcode, List.length_append]
  omega

theorem Occurs.opAt_iff (h : Occurs s off t) (hk : k < t.code.length) {op : Opcode} :
    OpAt s.code (off + k) op ↔ OpAt t.code k op := by
  unfold OpAt
  rw [h.getElem? hk]

theorem Occurs.definesAt_iff (h : Occurs s off t) (hk : k < t.code.length) :
    DefinesAt s.code (off + k) label ↔ DefinesAt t.code k label := by
  unfold DefinesAt
  rw [h.getElem? hk]

theorem Occurs.targetsAt_iff (h : Occurs s off t) (hk : k < t.code.length) :
    TargetsAt s.code (off + k) label ↔ TargetsAt t.code k label := by
  unfold TargetsAt
  rw [h.getElem? hk]

/-- A jump inside of a phrase goes to a label inside of it. -/
theorem Occurs.inward (h : Occurs s off t) : ∀ k ∈ Ico off (off + t.code.length), ∀ label,
    TargetsAt s.code k label → ∃ m ∈ Ico off (off + t.code.length), DefinesAt s.code m label := by
  intro k hk label htarget
  obtain ⟨hle, hlt⟩ := mem_Ico.mp hk
  obtain ⟨j, rfl⟩ := Nat.exists_eq_add_of_le hle
  obtain ⟨i, hi, hjump, rfl⟩ := (h.targetsAt_iff (by omega)).mp htarget
  have hmark := h.lowers.target_mem_marks i (List.mem_of_getElem? hi) hjump
  obtain ⟨m, hm⟩ := mem_marks_iff.mp hmark
  have hlength := hm.opAt.lt_length
  exact ⟨off + m, mem_Ico.mpr (by omega), (h.definesAt_iff hlength).mpr hm⟩

/-- A jump to a label inside of a phrase comes from inside of it. -/
theorem Occurs.outward (h : Occurs s off t) : ∀ k label, TargetsAt s.code k label →
    ∀ m ∈ Ico off (off + t.code.length), DefinesAt s.code m label →
      k ∈ Ico off (off + t.code.length) := by
  induction h with
  | whole =>
    rintro k label ⟨i, hi, -⟩ m - -
    have hlt := lt_length_of_getElem? hi
    exact mem_Ico.mpr (by omega)
  | @part f c c' p pre post t u j rule parts hu ih =>
    intro k label htarget m hm hdef
    have hlowers : Lowers ⟨f, c, p, codeOf (pre ++ .part t :: post), c'⟩ := .intro rule parts
    have hpart : Occurs ⟨f, c, p, codeOf (pre ++ .part t :: post), c'⟩ (codeOf pre).length t := by
      simpa using Occurs.part rule parts (.whole (parts t (by simp)))
    have hlength := hu.le_length
    obtain ⟨hle, hlt⟩ := mem_Ico.mp hm
    obtain ⟨m, rfl⟩ : ∃ m', m = (codeOf pre).length + m' := Nat.exists_eq_add_of_le (by omega)
    have hinner : DefinesAt t.code m label := (hpart.definesAt_iff (by omega)).mp hdef
    -- No jump around the part goes to the label, since the label is defined once.
    have hnodup := marks_nodup hlowers
    have hmark : label ∈ marks t.code := mem_marks_iff.mpr ⟨m, hinner⟩
    have haround {i : Instruction} (hi : i ∈ codeOf pre ++ codeOf post) (hjump : i.opcode.isJump) :
        i.label ≠ label := by
      rintro rfl
      have hother := rule.target_mem_marks parts i hi hjump
      simp only [codeOf_append, codeOf_part, marks_append] at hnodup
      grind [List.nodup_append]
    have hinside : (codeOf pre).length ≤ k ∧ k < (codeOf pre).length + t.code.length := by
      obtain ⟨i, hi, hjump, hlabel⟩ := htarget
      simp only [codeOf_append, codeOf_part] at hi
      by_contra hout
      by_cases hbefore : k < (codeOf pre).length
      · rw [List.getElem?_append_left hbefore] at hi
        exact haround (List.mem_append_left _ (List.mem_of_getElem? hi)) hjump hlabel
      · rw [List.getElem?_append_right (by omega), List.getElem?_append_right (by omega)] at hi
        exact haround (List.mem_append_right _ (List.mem_of_getElem? hi)) hjump hlabel
    obtain ⟨k, rfl⟩ : ∃ k', k = (codeOf pre).length + k' := Nat.exists_eq_add_of_le hinside.1
    have htarget : TargetsAt t.code k label := (hpart.targetsAt_iff (by omega)).mp htarget
    have hk := mem_Ico.mp (ih k label htarget m (mem_Ico.mpr (by omega)) hinner)
    exact mem_Ico.mpr (by omega)

end Positions

/-- A function begins and ends in no instruction that a rule adds, unless it is the rule for
functions. -/
theorem Rule.function_cases {f : Bool} {c c' : Counters} {p : Phrase} {pieces : List Piece}
    (rule : Rule f c p pieces c') :
    EachOwn (fun i => i.opcode ≠ .func ∧ i.opcode ≠ .endFunc) pieces ∨
      ∃ (name : String) (loc : Location) (params : List Instruction) (body : Segment),
        pieces = .own (.func name loc) :: params.map .own ++ [.part body, .own (.endFunc loc)] ∧
        body.inFunction = true ∧ ∀ i ∈ params, i.opcode = .param := by
  cases rule with
  | @function c c₁ loc nameLoc name params body paramCode code h =>
    refine .inr ⟨name, _, paramCode, ⟨true, c, .stmt body, code, c'⟩, rfl, rfl, fun i hi => ?_⟩
    obtain ⟨loc, name, -, rfl⟩ := parameters_eq_ok h i hi
    rfl
  | logical h =>
    left
    obtain ⟨-, rfl⟩ | ⟨-, rfl⟩ := shortCut?_eq_some.mp h <;> simp [EachOwn]
  | _ =>
    left
    simp [EachOwn]

/-- Between the start and the end of a function stand instructions that neither start nor end
one. -/
private theorem functionSpan_of_body {code body : List Instruction} {name : String} {loc : Location}
    (hcode : code = .func name loc :: body ++ [.endFunc loc])
    (hbody : ∀ i ∈ body, i.opcode ≠ .func ∧ i.opcode ≠ .endFunc) :
    FunctionSpan code 0 (code.length - 1) ∧ (∀ k, OpAt code k .func → k = 0) ∧
      ∀ k, OpAt code k .endFunc → k = code.length - 1 := by
  have hlength : code.length = body.length + 2 := by simp [hcode]
  have hstart : OpAt code 0 .func := ⟨.func name loc, by simp [hcode], rfl⟩
  have hend : OpAt code (body.length + 1) .endFunc := ⟨.endFunc loc, by simp [hcode], rfl⟩
  have hinside (k : Nat) (hk : k < body.length) :
      ¬ OpAt code (k + 1) .func ∧ ¬ OpAt code (k + 1) .endFunc := by
    have hget : code[k + 1]? = some body[k] := by
      rw [hcode, List.cons_append, List.getElem?_cons_succ, List.getElem?_append_left hk,
        List.getElem?_eq_getElem hk]
    have hne := hbody body[k] (List.getElem_mem hk)
    unfold OpAt
    simp [hget, hne]
  refine ⟨⟨hstart, body.length, ?_, by omega⟩, fun k hk => ?_, fun k hk => ?_⟩
  · refine matchingEnd_of_first (fun m hm => ?_) (fun m hm => ?_) ?_
    · rw [opAt_drop, Nat.zero_add, Nat.add_comm]
      exact (hinside m hm).1
    · rw [opAt_drop, Nat.zero_add, Nat.add_comm]
      exact (hinside m hm).2
    · rw [opAt_drop, Nat.zero_add, Nat.add_comm]
      exact hend
  · have hlt := hk.lt_length
    cases k with
    | zero => rfl
    | succ k =>
      by_cases hin : k < body.length
      · exact absurd hk (hinside k hin).1
      · obtain rfl : k = body.length := by omega
        cases opAt_unique hk hend
  · have hlt := hk.lt_length
    cases k with
    | zero => cases opAt_unique hk hstart
    | succ k =>
      by_cases hin : k < body.length
      · exact absurd hk (hinside k hin).2
      · omega

/-- Functions in lowered code are whole phrases: where one begins or ends, a phrase does. -/
theorem Lowers.function_of_opAt {s : Segment} (h : Lowers s) {k : Nat} {op : Opcode}
    (hk : OpAt s.code k op) (hop : op = .func ∨ op = .endFunc) :
    ∃ off t, Occurs s off t ∧ FunctionSpan t.code 0 (t.code.length - 1) ∧
      ((op = .func ∧ k = off) ∨ (op = .endFunc ∧ k = off + (t.code.length - 1))) := by
  induction h generalizing k with
  | @intro f c c' p pieces rule parts ih =>
    have hlowers : Lowers ⟨f, c, p, codeOf pieces, c'⟩ := .intro rule parts
    rcases rule.function_cases with hnone | ⟨name, loc, params, body, hpieces, hbody, hparams⟩
    · obtain ⟨i, hi, ho⟩ := hk
      rcases getElem?_codeOf hi with ⟨pre, post, rfl, rfl⟩ | ⟨pre, t, post, j, rfl, rfl, hj⟩
      · have hne := eachOwn_iff.mp hnone i (by simp)
        grind
      · obtain ⟨off, u, hu, hspan, hplace⟩ := ih t (by simp) ⟨i, hj, ho⟩
        refine ⟨_, u, .part rule parts hu, hspan, ?_⟩
        rcases hplace with ⟨hfunc, rfl⟩ | ⟨hend, rfl⟩
        · exact .inl ⟨hfunc, rfl⟩
        · exact .inr ⟨hend, by omega⟩
    · have hinside : ∀ i ∈ params ++ body.code, i.opcode ≠ .func ∧ i.opcode ≠ .endFunc := by
        intro i hi
        rcases List.mem_append.mp hi with hi | hi
        · simp [hparams i hi]
        · exact not_function_of_inFunction (parts body (by simp [hpieces])) hbody i hi
      have hcode : codeOf pieces = .func name loc :: (params ++ body.code) ++ [.endFunc loc] := by
        simp [hpieces]
      obtain ⟨hspan, hfunc, hend⟩ := functionSpan_of_body hcode hinside
      refine ⟨0, _, .whole hlowers, hspan, ?_⟩
      rcases hop with rfl | rfl
      · exact .inl ⟨rfl, hfunc k hk⟩
      · exact .inr ⟨rfl, by rw [Nat.zero_add]; exact hend k hk⟩

theorem Occurs.functionSpan {s t : Segment} {off p q : Nat} (h : Occurs s off t)
    (hspan : FunctionSpan t.code p q) : FunctionSpan s.code (off + p) (off + q) := by
  obtain ⟨pre, post, hcode, rfl⟩ := h.code
  rw [hcode]
  exact functionSpan_append pre post hspan

/-- A function that begins or ends inside of a phrase lies inside of it. -/
theorem Occurs.functionSpan_mem_iff {s t : Segment} {off p q : Nat} (h : Occurs s off t)
    (flat : ∀ p q p' q', FunctionSpan s.code p q → FunctionSpan s.code p' q' →
      p = p' ∨ q < p' ∨ q' < p)
    (hspan : FunctionSpan s.code p q) :
    p ∈ Ico off (off + t.code.length) ↔ q ∈ Ico off (off + t.code.length) := by
  constructor
  · intro hp
    obtain ⟨hle, hlt⟩ := mem_Ico.mp hp
    obtain ⟨p, rfl⟩ := Nat.exists_eq_add_of_le hle
    have hop := (h.opAt_iff (by omega)).mp hspan.1
    obtain ⟨o, u, hu, huspan, ⟨-, rfl⟩ | ⟨hne, -⟩⟩ := h.lowers.function_of_opAt hop (.inl rfl)
    · have hwhole := h.functionSpan (hu.functionSpan huspan)
      have hq : q = off + (p + (u.code.length - 1)) := hspan.unique hwhole
      have hlength := hu.le_length
      have hpos := huspan.1.lt_length
      exact mem_Ico.mpr (by omega)
    · cases hne
  · intro hq
    obtain ⟨hle, hlt⟩ := mem_Ico.mp hq
    obtain ⟨q, rfl⟩ := Nat.exists_eq_add_of_le hle
    have hop := (h.opAt_iff (by omega)).mp hspan.opAt
    obtain ⟨o, u, hu, huspan, ⟨hne, -⟩ | ⟨-, rfl⟩⟩ := h.lowers.function_of_opAt hop (.inr rfl)
    · cases hne
    · have hwhole := h.functionSpan (hu.functionSpan huspan)
      have hpq := hspan.lt
      have hpos := huspan.1.lt_length
      have hlength := hu.le_length
      have hstart := flat _ _ _ _ hspan hwhole
      exact mem_Ico.mpr (by omega)

end Sil.Lowering
