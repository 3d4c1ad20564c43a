import Mathlib
import Sil.Proofs.ControlFlow
import Sil.Proofs.LoweringRules

/-!
What the rules say about lowered code as a list: its labels are those between the counters around
it, and each of them is met once; values live in literals, variables and temporaries; its
instructions are complete.
-/
/-- The variable that holds the value of an expression, where that is a variable or an
assignment. -/
def Sil.Node.variable? : Node → Option String
  | .identifier _ name => some name
  | .assignment _ _ (.identifier _ target) _ => some target
  | _ => none

namespace Sil.Lowering
open Counters

def marks (code : List Instruction) : List (Option String) :=
  code.filterMap fun i => if i.opcode = .label then some i.label else none

@[simp] theorem marks_nil : marks [] = [] := rfl

@[simp] theorem marks_append (xs ys : List Instruction) :
    marks (xs ++ ys) = marks xs ++ marks ys := by
  simp [marks]

@[simp] theorem marks_cons (i : Instruction) (rest : List Instruction) :
    marks (i :: rest) = if i.opcode = .label then i.label :: marks rest else marks rest := by
  by_cases h : i.opcode = .label <;> simp [marks, h]

theorem marks_param {params : List Node} {code : List Instruction}
    (h : parameters params = .ok code) : marks code = [] := by
  simp only [marks, List.filterMap_eq_nil_iff]
  intro i hi
  obtain ⟨loc, name, -, rfl⟩ := parameters_eq_ok h i hi
  simp

theorem counters_le {s : Segment} (h : Lowers s) :
    s.before.temps ≤ s.after.temps ∧ s.before.labels ≤ s.after.labels := by
  induction h with
  | intro rule parts ih =>
    replace ih := eachPart_iff.mpr ih
    cases rule with
    | function h =>
      obtain ⟨hb, -⟩ := (eachPart_own _ _).mp ih
      exact hb
    | _ =>
      simp only [EachPart] at ih
      dsimp only
      omega

theorem marks_count {s : Segment} (h : Lowers s) (n : Nat) :
    (marks s.code).count (some (labelName n)) =
      if s.before.labels ≤ n ∧ n < s.after.labels then 1 else 0 := by
  induction h with
  | intro rule parts ih =>
    replace ih := eachPart_iff.mpr ih
    have hle := eachPart_iff.mpr fun t ht => (counters_le (parts t ht)).2
    cases rule with
    | function h =>
      obtain ⟨hb, -⟩ := (eachPart_own _ _).mp ih
      simpa [marks_param h] using hb
    | logical h =>
      simp only [EachPart] at ih hle
      obtain ⟨-, rfl⟩ | ⟨-, rfl⟩ := shortCut?_eq_some.mp h
      · simp [ih, List.count_cons]
        grind
      · simp [ih, List.count_cons]
        grind
    | literal | identifier | declare | ret | nil | noUpdate => simp
    | assignment | program | block | declaration | initialise | expression | bare | retValue
      | someUpdate =>
      simp [ih.1]
    | _ =>
      simp only [EachPart] at ih hle
      simp [ih, List.count_cons]
      grind

theorem mem_codeOf {i : Instruction} {ps : List Piece} :
    i ∈ codeOf ps ↔ .own i ∈ ps ∨ ∃ t, .part t ∈ ps ∧ i ∈ t.code := by
  induction ps with
  | nil => simp
  | cons p ps ih =>
    cases p with
    | own j => simp [ih, or_assoc]
    | part t => simp [ih, or_and_right, exists_or, or_left_comm]

/-- A property of every instruction that stands itself among some pieces. -/
def EachOwn (P : Instruction → Prop) : List Piece → Prop
  | [] => True
  | .own i :: rest => P i ∧ EachOwn P rest
  | .part _ :: rest => EachOwn P rest

theorem eachOwn_iff {P : Instruction → Prop} {ps : List Piece} :
    EachOwn P ps ↔ ∀ i, .own i ∈ ps → P i := by
  induction ps with
  | nil => simp [EachOwn]
  | cons p ps ih => cases p <;> simp [EachOwn, ih]

theorem eachOwn_map_own {P : Instruction → Prop} (is : List Instruction) (ps : List Piece) :
    EachOwn P (is.map .own ++ ps) ↔ (∀ i ∈ is, P i) ∧ EachOwn P ps := by
  simp [eachOwn_iff, or_imp, forall_and]

/-- What holds of the instructions that each rule adds holds of all lowered code. -/
theorem Lowers.forall_code {P : Instruction → Prop}
    (own : ∀ {f c p pieces c'}, Rule f c p pieces c' → EachPart Lowers pieces → EachOwn P pieces)
    {s : Segment} (h : Lowers s) : ∀ i ∈ s.code, P i := by
  induction h with
  | intro rule parts ih =>
    intro i hi
    obtain hi | ⟨t, ht, hi⟩ := mem_codeOf.mp hi
    · exact eachOwn_iff.mp (own rule (eachPart_iff.mpr parts)) i hi
    · exact ih t ht i hi

private theorem mark_named {f c p pieces c'} (rule : Rule f c p pieces c') :
    EachOwn (fun i => i.opcode = .label → ∃ n, i.label = some (labelName n)) pieces := by
  cases rule with
  | function h =>
    refine ⟨by simp, (eachOwn_map_own _ _).mpr ⟨fun i hi => ?_, by simp [EachOwn]⟩⟩
    obtain ⟨loc, name, -, rfl⟩ := parameters_eq_ok h i hi
    simp
  | logical h => obtain ⟨-, rfl⟩ | ⟨-, rfl⟩ := shortCut?_eq_some.mp h <;> simp [EachOwn]
  | _ => simp [EachOwn]

theorem marks_named {s : Segment} (h : Lowers s) :
    ∀ label ∈ marks s.code, ∃ n, label = some (labelName n) := by
  have hcode := h.forall_code fun rule _ => mark_named rule
  intro label hl
  simp only [marks, List.mem_filterMap] at hl
  obtain ⟨i, hi, hl⟩ := hl
  split at hl
  · rename_i ho
    cases hl
    exact hcode i hi ho
  · cases hl

theorem mem_marks {s : Segment} (h : Lowers s) {label : Option String} :
    label ∈ marks s.code ↔
      ∃ n, s.before.labels ≤ n ∧ n < s.after.labels ∧ label = some (labelName n) := by
  constructor
  · intro hl
    obtain ⟨n, rfl⟩ := marks_named h label hl
    have hpos := List.count_pos_iff.mpr hl
    rw [marks_count h] at hpos
    split at hpos
    · rename_i hn
      exact ⟨n, hn.1, hn.2, rfl⟩
    · omega
  · rintro ⟨n, hle, hlt, rfl⟩
    rw [← List.count_pos_iff, marks_count h, if_pos ⟨hle, hlt⟩]
    exact Nat.one_pos

/-- Numbered labels are different when each number comes once at most. -/
theorem nodup_of_numbered {labels : List (Option String)}
    (hnamed : ∀ label ∈ labels, ∃ n, label = some (labelName n))
    (hcount : ∀ n, labels.count (some (labelName n)) ≤ 1) : labels.Nodup := by
  rw [List.nodup_iff_count_le_one]
  intro label
  by_cases hl : label ∈ labels
  · obtain ⟨n, rfl⟩ := hnamed label hl
    exact hcount n
  · rw [List.count_eq_zero_of_not_mem hl]
    omega

/-- Every label of lowered code is met once. -/
theorem marks_nodup {s : Segment} (h : Lowers s) : (marks s.code).Nodup := by
  apply nodup_of_numbered (marks_named h)
  intro n
  rw [marks_count h]
  split <;> omega

/-- The value of an expression is its literal, the variable that holds it or a temporary of its
own. -/
theorem value_cases {f : Bool} {c c' : Counters} {n : Node} {value : Operand}
    {code : List Instruction} (h : Lowers ⟨f, c, .expr n value, code, c'⟩) :
    (∃ loc v raw spelling, n = .literal loc v raw ∧ value = .const v spelling) ∨
      (∃ x, n.variable? = some x ∧ value = .var x) ∨
      ∃ k < c'.temps, value = .temp (tempName k) := by
  cases h with
  | intro rule parts =>
    replace parts := eachPart_iff.mpr parts
    cases rule with
    | literal h =>
      obtain ⟨spelling, rfl⟩ := literal_eq_ok h
      exact .inl ⟨_, _, _, _, rfl, rfl⟩
    | identifier => exact .inr (.inl ⟨_, rfl, rfl⟩)
    | assignment => exact .inr (.inl ⟨_, rfl, rfl⟩)
    | binary => exact .inr (.inr ⟨_, Nat.lt_succ_self _, rfl⟩)
    | logical =>
      obtain ⟨-, hr, -⟩ := parts
      exact .inr (.inr ⟨_, (counters_le hr).1, rfl⟩)

theorem value_plain {f : Bool} {c c' : Counters} {n : Node} {value : Operand}
    {code : List Instruction} (h : Lowers ⟨f, c, .expr n value, code, c'⟩) : value.isPlain := by
  rcases value_cases h with ⟨loc, v, raw, spelling, -, rfl⟩ | ⟨x, -, rfl⟩ | ⟨k, -, rfl⟩
  · rfl
  · rfl
  · rfl

private theorem own_complete {f c p pieces c'} (rule : Rule f c p pieces c')
    (parts : EachPart Lowers pieces) : EachOwn (fun i => i.isComplete) pieces := by
  cases rule with
  | function h =>
    refine ⟨rfl, (eachOwn_map_own _ _).mpr ⟨fun i hi => ?_, rfl, trivial⟩⟩
    obtain ⟨loc, name, -, rfl⟩ := parameters_eq_ok h i hi
    rfl
  | logical h =>
    obtain ⟨hl, hr, -⟩ := parts
    obtain ⟨-, rfl⟩ | ⟨-, rfl⟩ := shortCut?_eq_some.mp h <;>
      simp [EachOwn, value_plain hl, value_plain hr]
  | binary =>
    obtain ⟨hl, hr, -⟩ := parts
    simp [EachOwn, value_plain hl, value_plain hr]
  | forLoop =>
    obtain ⟨-, ht, -⟩ := parts
    simp [EachOwn, value_plain ht]
  | assignment | initialise | conditional | alternative | whileLoop | retValue =>
    obtain ⟨hv, -⟩ := parts
    simp [EachOwn, value_plain hv]
  | _ => simp [EachOwn]

/-- Lowered code has every field that its operations need. -/
theorem lowers_complete {s : Segment} (h : Lowers s) : ∀ i ∈ s.code, i.isComplete :=
  h.forall_code own_complete

end Sil.Lowering
