import Mathlib
import Sil.Proofs.LoweredTrace
import Sil.Proofs.StreamAcceptance
import Sil.Proofs.Subtree

/-!
The structure of lowered code: its labels are the numbered ones, each defined once, its branches and
functions are nested, tests and conditional jumps come in pairs, and the only jumps back are those
of loops to their own start.
-/
namespace Sil.Lowering
open Counters Streams

theorem branchTargets_param {params : List Node} {code : List Instruction}
    (h : parameters params = .ok code) : branchTargets code = [] := by
  unfold branchTargets
  rw [List.map_eq_nil_iff, List.filter_eq_nil_iff]
  intro i hi
  obtain ⟨loc, name, -, rfl⟩ := parameters_eq_ok h i hi
  simp [Opcode.isConditionalJump]

/-- A label is the target of at most one conditional jump, and of none outside of the phrase that
allocates it. -/
theorem branchTargets_count {s : Segment} (h : Lowers s) (n : Nat) :
    (branchTargets s.code).count (some (labelName n)) ≤
      if s.before.labels ≤ n ∧ n < s.after.labels then 1 else 0 := by
  induction h with
  | intro rule parts ih =>
    replace ih := eachPart_iff.mpr ih
    have hle := eachPart_iff.mpr fun t ht => (counters_le (parts t ht)).2
    cases rule with
    | function h =>
      obtain ⟨hb, -⟩ := (eachPart_own _ _).mp ih
      simpa [branchTargets_param h, Opcode.isConditionalJump] using hb
    | logical h =>
      simp only [EachPart] at ih hle
      obtain ⟨-, rfl⟩ | ⟨-, rfl⟩ := shortCut?_eq_some.mp h
      · simp [List.count_cons, Opcode.isConditionalJump]
        grind
      · simp [List.count_cons, Opcode.isConditionalJump]
        grind
    | literal | identifier | nil | noUpdate | declare | ret => simp [Opcode.isConditionalJump]
    | _ =>
      simp only [EachPart] at ih hle
      simp [List.count_cons, Opcode.isConditionalJump]
      grind

private theorem own_target_named {f c p pieces c'} (rule : Rule f c p pieces c') :
    EachOwn (fun i => i.opcode.isConditionalJump → ∃ n, i.label = some (labelName n)) pieces := by
  cases rule with
  | function h =>
    refine ⟨by simp [Opcode.isConditionalJump], (eachOwn_map_own _ _).mpr ⟨fun i hi => ?_,
      by simp [EachOwn, Opcode.isConditionalJump]⟩⟩
    obtain ⟨loc, name, -, rfl⟩ := parameters_eq_ok h i hi
    simp [Opcode.isConditionalJump]
  | logical h =>
    obtain ⟨-, rfl⟩ | ⟨-, rfl⟩ := shortCut?_eq_some.mp h <;>
      simp [EachOwn, Opcode.isConditionalJump]
  | _ => simp [EachOwn, Opcode.isConditionalJump]

/-- No two conditional jumps of lowered code name the same label. -/
theorem branchTargets_nodup {s : Segment} (h : Lowers s) : (branchTargets s.code).Nodup := by
  have hnamed := h.forall_code fun rule _ => own_target_named rule
  apply nodup_of_numbered
  · intro label hl
    obtain ⟨i, hi, rfl⟩ := List.mem_map.mp hl
    obtain ⟨hi, ho⟩ := List.mem_filter.mp hi
    exact hnamed i hi ho
  · intro n
    have hcount := branchTargets_count h n
    split at hcount <;> omega

/-- A phrase of a lowered phrase, with the position where its code starts. -/
inductive Occurs : Segment → Nat → Segment → Prop
  | whole {s : Segment} (h : Lowers s) : Occurs s 0 s
  | part {f : Bool} {c c' : Counters} {p : Phrase} {pre post : List Piece} {t u : Segment} {k : Nat}
      (rule : Rule f c p (pre ++ .part t :: post) c')
      (parts : ∀ v, .part v ∈ pre ++ .part t :: post → Lowers v) (h : Occurs t k u) :
      Occurs ⟨f, c, p, codeOf (pre ++ .part t :: post), c'⟩ ((codeOf pre).length + k) u

/-- The start label of a loop and where it stands in the code of the loop: a `while` opens with it,
a `for` has it right after its initialisation. -/
inductive StartsLoop : Segment → Nat → String → Prop
  | ofWhile {f : Bool} {c c' : Counters} {loc : Option Location} {test body : Node} {label : String}
      {rest : List Piece}
      (rule : Rule f c (.stmt (.whileLoop loc test body)) (.own (.mark label) :: rest) c') :
      StartsLoop ⟨f, c, .stmt (.whileLoop loc test body), codeOf (.own (.mark label) :: rest), c'⟩
        0 label
  | ofFor {f : Bool} {c c' : Counters} {loc : Option Location} {init test update : Option Node}
      {body : Node} {first : Segment} {label : String} {rest : List Piece}
      (hinit : first.phrase = .stmts init.toList)
      (rule : Rule f c (.stmt (.forLoop loc init test update body))
        (.part first :: .own (.mark label) :: rest) c') :
      StartsLoop ⟨f, c, .stmt (.forLoop loc init test update body),
        codeOf (.part first :: .own (.mark label) :: rest), c'⟩ first.code.length label

/-- An instruction of a list of pieces is one of the pieces or stands in a part. -/
theorem getElem?_codeOf {ps : List Piece} {k : Nat} {i : Instruction}
    (h : (codeOf ps)[k]? = some i) :
    (∃ pre post, ps = pre ++ .own i :: post ∧ k = (codeOf pre).length) ∨
      ∃ pre t post j, ps = pre ++ .part t :: post ∧ k = (codeOf pre).length + j ∧
        t.code[j]? = some i := by
  induction ps generalizing k with
  | nil => cases h
  | cons p ps ih =>
    -- What follows the first piece is found further on.
    have hlater {n : Nat} (hn : k = (codeOf [p]).length + n) (h : (codeOf ps)[n]? = some i) :
        (∃ pre post, p :: ps = pre ++ .own i :: post ∧ k = (codeOf pre).length) ∨
          ∃ pre t post j, p :: ps = pre ++ .part t :: post ∧ k = (codeOf pre).length + j ∧
            t.code[j]? = some i := by
      have hcode (pre : List Piece) : (codeOf (p :: pre)).length =
          (codeOf [p]).length + (codeOf pre).length := by
        rw [← List.singleton_append, codeOf_append, List.length_append]
      rcases ih h with ⟨pre, post, rfl, hpre⟩ | ⟨pre, t, post, j, rfl, hpre, hj⟩
      · have hlength := hcode pre
        exact .inl ⟨p :: pre, post, rfl, by omega⟩
      · have hlength := hcode pre
        exact .inr ⟨p :: pre, t, post, j, rfl, by omega, hj⟩
    cases p with
    | own j =>
      cases k with
      | zero =>
        cases h
        exact .inl ⟨[], ps, rfl, rfl⟩
      | succ k => exact hlater (by simp [Nat.add_comm]) h
    | part t =>
      rw [codeOf_part] at h
      by_cases hk : k < t.code.length
      · rw [List.getElem?_append_left hk] at h
        exact .inr ⟨[], t, ps, k, rfl, by simp, h⟩
      · rw [List.getElem?_append_right (by omega)] at h
        refine hlater ?_ h
        simp only [codeOf_part, codeOf_nil, List.append_nil]
        omega

/-- A property of every instruction that stands itself among some pieces, together with the pieces
before and after it. -/
def EachOwnAt (P : List Piece → Instruction → List Piece → Prop) : List Piece → List Piece → Prop
  | _, [] => True
  | pre, .own i :: rest => P pre i rest ∧ EachOwnAt P (pre ++ [.own i]) rest
  | pre, .part t :: rest => EachOwnAt P (pre ++ [.part t]) rest

theorem EachOwnAt.get {P : List Piece → Instruction → List Piece → Prop} {acc pre post : List Piece}
    {i : Instruction} (h : EachOwnAt P acc (pre ++ .own i :: post)) : P (acc ++ pre) i post := by
  induction pre generalizing acc with
  | nil =>
    rw [List.append_nil]
    exact h.1
  | cons p pre ih =>
    cases p with
    | own j => simpa using ih h.2
    | part t => simpa using ih h

theorem eachOwnAt_of_eachOwn {P : List Piece → Instruction → List Piece → Prop}
    {Q : Instruction → Prop} (hQ : ∀ pre i post, Q i → P pre i post) {ps : List Piece}
    (h : EachOwn Q ps) (acc : List Piece) : EachOwnAt P acc ps := by
  induction ps generalizing acc with
  | nil => trivial
  | cons p ps ih =>
    cases p with
    | own j => exact ⟨hQ _ _ _ h.1, ih h.2 _⟩
    | part t => exact ih h _

theorem mem_marks_iff {code : List Instruction} {label : Option String} :
    label ∈ marks code ↔ ∃ m, DefinesAt code m label := by
  simp only [marks, List.mem_filterMap, DefinesAt]
  constructor
  · rintro ⟨i, hi, h⟩
    split at h
    · rename_i ho
      cases h
      obtain ⟨m, hm⟩ := List.mem_iff_getElem?.mp hi
      exact ⟨m, i, hm, ho, rfl⟩
    · cases h
  · rintro ⟨m, i, hm, ho, rfl⟩
    exact ⟨i, List.mem_of_getElem? hm, by simp [ho]⟩

theorem definesAt_append (xs : List Instruction) {ys : List Instruction} {m : Nat}
    {label : Option String} (h : DefinesAt ys m label) :
    DefinesAt (xs ++ ys) (xs.length + m) label := by
  obtain ⟨i, hi, ho, hl⟩ := h
  refine ⟨i, ?_, ho, hl⟩
  rw [List.getElem?_append_right (by omega), Nat.add_sub_cancel_left, hi]

theorem definesAt_append_left {xs : List Instruction} (ys : List Instruction) {m : Nat}
    {label : Option String} (h : DefinesAt xs m label) : DefinesAt (xs ++ ys) m label := by
  obtain ⟨i, hi, ho, hl⟩ := h
  exact ⟨i, by rw [List.getElem?_append_left (lt_length_of_getElem? hi), hi], ho, hl⟩

/-- The jumps that a rule adds go to a label after them or to the start of the loop that is
lowered. -/
private theorem own_jump {f c p pieces c'} (rule : Rule f c p pieces c') :
    EachOwnAt (fun pre i post => i.opcode = .jump → i.label ∈ marks (codeOf post) ∨
      ∃ o l, StartsLoop ⟨f, c, p, codeOf pieces, c'⟩ o l ∧ i.label = some l ∧
        o < (codeOf pre).length) [] pieces := by
  cases rule with
  | function h =>
    refine eachOwnAt_of_eachOwn (Q := fun i => i.opcode ≠ .jump) ?_ ?_ []
    · intro pre i post hne ho
      exact absurd ho hne
    refine ⟨by simp, (eachOwn_map_own _ _).mpr ⟨fun i hi => ?_, by simp [EachOwn]⟩⟩
    obtain ⟨loc, name, -, rfl⟩ := parameters_eq_ok h i hi
    simp
  | logical h =>
    obtain ⟨-, rfl⟩ | ⟨-, rfl⟩ := shortCut?_eq_some.mp h <;> simp [EachOwnAt]
  | whileLoop =>
    refine ⟨by simp, by simp, by simp, fun _ => ?_, by simp, trivial⟩
    exact .inr ⟨0, _, .ofWhile .whileLoop, rfl, by simp⟩
  | forLoop =>
    refine ⟨by simp, by simp, by simp, fun _ => ?_, by simp, trivial⟩
    exact .inr ⟨_, _, .ofFor rfl .forLoop, rfl, by simp⟩
  | endlessLoop =>
    refine ⟨by simp, fun _ => ?_, by simp, trivial⟩
    exact .inr ⟨_, _, .ofFor rfl .endlessLoop, rfl, by simp⟩
  | _ => simp [EachOwnAt]

theorem Occurs.code {s t : Segment} {k : Nat} (h : Occurs s k t) :
    ∃ pre post, s.code = pre ++ (t.code ++ post) ∧ pre.length = k := by
  induction h with
  | whole => exact ⟨[], [], by simp, rfl⟩
  | @part f c c' p pre post t u k rule parts _ ih =>
    obtain ⟨before, rest, hcode, hk⟩ := ih
    refine ⟨codeOf pre ++ before, rest ++ codeOf post, ?_, by simp [hk]⟩
    simp [hcode]

theorem Occurs.subtree {s t : Segment} {k : Nat} (h : Occurs s k t) {m : Node}
    (hm : m ∈ t.phrase.nodes) : ∃ n ∈ s.phrase.nodes, Node.Subtree m n := by
  induction h with
  | whole => exact ⟨m, hm, .root m⟩
  | @part f c c' p pre post t u k rule parts _ ih =>
    obtain ⟨n, hn, hsub⟩ := ih hm
    obtain ⟨a, ha, rfl | hchild⟩ := eachPart_iff.mp rule.part_nodes t (by simp) n hn
    · exact ⟨n, ha, hsub⟩
    · exact ⟨a, ha, hsub.trans (.child hchild)⟩

theorem StartsLoop.definesAt {t : Segment} {o : Nat} {l : String} (h : StartsLoop t o l) :
    DefinesAt t.code o (some l) := by
  cases h with
  | ofWhile => exact ⟨.mark l, rfl, rfl, rfl⟩
  | ofFor => exact ⟨.mark l, by simp, rfl, rfl⟩

theorem StartsLoop.exists_node {t : Segment} {o : Nat} {l : String} (h : StartsLoop t o l) :
    ∃ loop, t.phrase = .stmt loop := by
  cases h with
  | ofWhile => exact ⟨_, rfl⟩
  | ofFor => exact ⟨_, rfl⟩

/-- A jump goes to a label after it, or to the start of a loop around it. -/
theorem jump_forward_or_loop {s : Segment} (h : Lowers s) {k : Nat} {label : Option String}
    (hj : JumpsAt s.code k label) : (∃ m, k < m ∧ DefinesAt s.code m label) ∨
      ∃ off t o l, Occurs s off t ∧ StartsLoop t o l ∧ label = some l ∧ off + o < k ∧
        k < off + t.code.length := by
  induction h generalizing k label with
  | @intro f c c' p pieces rule parts ih =>
    have hwhole : Lowers ⟨f, c, p, codeOf pieces, c'⟩ := .intro rule parts
    have hk : k < (codeOf pieces).length := by
      obtain ⟨i, hi, -⟩ := hj
      exact lt_length_of_getElem? hi
    obtain ⟨i, hi, ho, rfl⟩ := hj
    rcases getElem?_codeOf hi with ⟨pre, post, rfl, rfl⟩ | ⟨pre, t, post, j, rfl, rfl, hj⟩
    · -- The jump is the rule's own.
      rcases (own_jump rule).get ho with hmark | ⟨o, l, hstart, hl, hlt⟩
      · obtain ⟨m, hm⟩ := mem_marks_iff.mp hmark
        have hlater := definesAt_append (codeOf pre) (definesAt_append [i] hm)
        refine .inl ⟨(codeOf pre).length + (1 + m), by omega, ?_⟩
        simpa using hlater
      · exact .inr ⟨0, _, o, l, .whole hwhole, hstart, hl, by simpa using hlt,
          by simpa only [Nat.zero_add] using hk⟩
    · -- The jump belongs to a part.
      rcases ih t (by simp) ⟨i, hj, ho, rfl⟩ with
        ⟨m, hlt, hm⟩ | ⟨off, u, o, l, hu, hstart, hl, hlt, hlt'⟩
      · have hlater := definesAt_append (codeOf pre) (definesAt_append_left (codeOf post) hm)
        refine .inl ⟨(codeOf pre).length + m, by omega, ?_⟩
        simpa using hlater
      · exact .inr ⟨(codeOf pre).length + off, u, o, l, .part rule parts hu, hstart, hl,
          by omega, by omega⟩

/-- Lowered code is well structured. -/
theorem wellStructured_of_lower {limits : Limits} {tree : Node} {code : List Instruction}
    (h : tree.lower limits = .ok code) :
    WellStructured code := by
  obtain ⟨c, hs⟩ := lowers_of_lower h
  have hdistinct := distinctBranches_of_nodup (branchTargets_nodup hs)
  exact (trace_iff_wellStructured (lower_complete h) hdistinct).mp ⟨_, trace_of_lower h, rfl, rfl⟩

/-- Lowered code does not end with a test. -/
theorem branch_after_test {limits : Limits} {tree : Node} {code : List Instruction}
    (h : tree.lower limits = .ok code) {k : Nat} (hk : OpAt code k .cmp) :
    ∃ label, BranchesAt code (k + 1) label := by
  obtain ⟨c, hs⟩ := lowers_of_lower h
  have hdistinct := distinctBranches_of_nodup (branchTargets_nodup hs)
  obtain ⟨-, ht⟩ := fits_of_trace_start (lower_complete h) hdistinct (trace_of_lower h)
  have hlast : ¬ TestBefore code code.length := by
    rw [← ht.tested]
    exact Bool.false_ne_true
  have hlt := hk.lt_length
  have hne : k + 1 ≠ code.length := fun heq => hlast ⟨k, heq.symm, hk⟩
  exact (wellStructured_of_lower h).used k hk (by omega)

/-- The labels of lowered code are those numbered below the counter, each once. -/
theorem marks_perm {s : Segment} (h : Lowers s) (hbefore : s.before.labels = 0) :
    (marks s.code).Perm ((List.range s.after.labels).map fun n => some (labelName n)) := by
  have hrange : ((List.range s.after.labels).map fun n => some (labelName n)).Nodup := by
    refine List.Nodup.map (fun m n hmn => ?_) List.nodup_range
    simpa using hmn
  rw [List.perm_ext_iff_of_nodup (marks_nodup h) hrange]
  intro label
  rw [mem_marks h, hbefore]
  simp [eq_comm]

end Sil.Lowering

namespace Sil
open Lowering Streams

/-- The structure of the code of every tree that lowers: the labels are the numbered ones, each
defined once; branches and functions are nested and jump forward; every test is followed by a
conditional jump; a jump to an earlier label goes to the start of a loop around it. -/
theorem lowered_code_is_structured {limits : Limits} (tree : Node) {code : List Instruction}
    (h : tree.lower limits = .ok code) :
    ∃ c, tree.lowerCounting limits = .ok (code, c) ∧
      (marks code).Perm ((List.range c.labels).map fun n => some (Counters.labelName n)) ∧
      WellStructured code ∧
      (∀ k, OpAt code k .cmp → ∃ label, BranchesAt code (k + 1) label) ∧
      ∀ k m label, JumpsAt code k label → DefinesAt code m label → m < k →
        ∃ loop off t start l, Node.Subtree loop tree ∧ t.phrase = .stmt loop ∧
          Occurs ⟨false, {}, .stmt tree, code, c⟩ off t ∧ StartsLoop t start l ∧
          label = some l ∧ m = off + start ∧ k < off + t.code.length := by
  have hw := wellStructured_of_lower h
  have htests (k : Nat) (hk : OpAt code k .cmp) := branch_after_test h hk
  obtain ⟨⟨code, c⟩, hcounting, h⟩ := bind_eq_ok.mp h
  cases h
  have hs := lowers_of_statement tree hcounting
  refine ⟨c, hcounting, marks_perm hs rfl, hw, htests, fun k m label hj hm hlt => ?_⟩
  rcases jump_forward_or_loop hs hj with
    ⟨m', hlt', hm'⟩ | ⟨off, t, start, l, ht, hstart, hl, hk, hk'⟩
  · have := hw.once m m' label hm hm'
    omega
  · obtain ⟨loop, hloop⟩ := hstart.exists_node
    obtain ⟨n, hn, hsub⟩ := ht.subtree (m := loop) (by simp [hloop, Phrase.nodes])
    obtain rfl : n = tree := List.mem_singleton.mp hn
    have hdef : DefinesAt code (off + start) label := by
      obtain ⟨pre, post, hcode, rfl⟩ := ht.code
      dsimp only at hcode
      rw [hcode, hl]
      exact definesAt_append pre (definesAt_append_left post hstart.definesAt)
    have hmeq := hw.once m (off + start) label hm hdef
    exact ⟨loop, off, t, start, l, hsub, hloop, ht, hstart, hl, hmeq, hk'⟩

/-- A loop with a choice in its body. -/
def drain : Node :=
  .forLoop none none (some (.identifier none "a")) none
    (.conditional none (.identifier none "b")
      (.assignment none "=" (.identifier none "a") (.identifier none "b")) none)

theorem drain_code_is_structured :
    ∃ code c, drain.lower {} = .ok code ∧ JumpsAt code 7 (some "L0") ∧
      DefinesAt code 0 (some "L0") ∧
      (marks code).Perm ((List.range c.labels).map fun n => some (Counters.labelName n)) ∧
      WellStructured code ∧
      ∃ loop off t start l, Node.Subtree loop drain ∧ t.phrase = .stmt loop ∧
        Occurs ⟨false, {}, .stmt drain, code, c⟩ off t ∧ StartsLoop t start l ∧
        some "L0" = some l ∧ 0 = off + start ∧ 7 < off + t.code.length := by
  have hlower : ∃ code, drain.lower {} = .ok code ∧ JumpsAt code 7 (some "L0") ∧
      DefinesAt code 0 (some "L0") :=
    ⟨_, rfl, ⟨_, rfl, rfl, rfl⟩, ⟨_, rfl, rfl, rfl⟩⟩
  obtain ⟨code, hcode, hjump, hdef⟩ := hlower
  obtain ⟨c, -, hperm, hw, -, hback⟩ := lowered_code_is_structured drain hcode
  exact ⟨code, c, hcode, hjump, hdef, hperm, hw, hback 7 0 (some "L0") hjump hdef (by omega)⟩

end Sil
