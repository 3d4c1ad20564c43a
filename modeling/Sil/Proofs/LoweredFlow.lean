import Mathlib
import Sil.Proofs.LoweredSegments
import Sil.Proofs.LoweringComplete

/-!
The flow of control through lowered code. Every node of a tree is lowered to a segment that control
enters at its first instruction and leaves only past its last one, or by a return. So the right
operand of a logical operator is reached only through the jump in front of it, and jumps stay in
their function.
-/
namespace Sil.Lowering
open Counters Streams Set

/-- A phrase that is lowered for one node: a statement or an expression. -/
def Phrase.IsOf (p : Phrase) (n : Node) : Prop := p = .stmt n ∨ ∃ value, p = .expr n value

theorem parameters_identifiers {params : List Node} {code : List Instruction}
    (h : parameters params = .ok code) : ∀ p ∈ params, ∃ loc name, p = .identifier loc name := by
  induction params generalizing code with
  | nil => simp
  | cons p rest ih =>
    unfold parameters at h
    split at h
    · rename_i loc name
      obtain ⟨restCode, hrest, -⟩ := bind_eq_ok.mp h
      intro q hq
      obtain rfl | hq := List.mem_cons.mp hq
      · exact ⟨loc, name, rfl⟩
      · exact ih hrest q hq
    · cases h

/-- Every child of a node is lowered in a part of the node's phrase, unless it only stands for a
name. -/
theorem Rule.nodes_covered {f : Bool} {c c' : Counters} {p : Phrase} {pieces : List Piece}
    (rule : Rule f c p pieces c') : ∀ n ∈ p.nodes,
      (∃ t, .part t ∈ pieces ∧ n ∈ t.phrase.nodes) ∨
      (p.IsOf n ∧ ∀ k ∈ n.children, (∃ loc name, k = .identifier loc name) ∨
        ∃ t, .part t ∈ pieces ∧ k ∈ t.phrase.nodes) := by
  have hstmt (m n : Node) : (Phrase.stmt m).IsOf n ↔ n = m := by simp [Phrase.IsOf, eq_comm]
  have hexpr (m n : Node) (v : Operand) : (Phrase.expr m v).IsOf n ↔ n = m := by
    simp [Phrase.IsOf, eq_comm]
  cases rule with
  | program | block | declaration =>
    intro n hn
    obtain rfl := List.mem_singleton.mp hn
    exact .inr ⟨.inl rfl, fun k hk => .inr ⟨_, List.mem_singleton_self _, hk⟩⟩
  | forLoop | endlessLoop =>
    simp [Phrase.nodes, Node.children, hstmt]
    grind
  | function h =>
    intro n hn
    obtain rfl := List.mem_singleton.mp hn
    refine .inr ⟨.inl rfl, fun k hk => ?_⟩
    simp only [Node.children, List.cons_append, List.mem_cons, List.mem_append] at hk
    rcases hk with rfl | hk | rfl | hk
    · exact .inl ⟨_, _, rfl⟩
    · exact .inl (parameters_identifiers h k hk)
    · exact .inr ⟨_, List.mem_append_right _ List.mem_cons_self, List.mem_singleton_self _⟩
    · cases hk
  | cons =>
    intro n hn
    rcases List.mem_cons.mp hn with rfl | hn
    · exact .inl ⟨_, List.mem_cons_self, List.mem_singleton_self _⟩
    · exact .inl ⟨_, List.mem_cons_of_mem _ List.mem_cons_self, hn⟩
  | _ => simp [Phrase.nodes, Node.children, hstmt, hexpr]

/-- Every node of a lowered phrase is lowered in it, unless it only stands for a name. -/
theorem Lowers.occurs_of_subtree {s : Segment} (h : Lowers s) {m n : Node} (hn : n ∈ s.phrase.nodes)
    (hm : Node.Subtree m n) :
    (∃ loc name, m = .identifier loc name) ∨ ∃ off t, Occurs s off t ∧ t.phrase.IsOf m := by
  induction h generalizing m n with
  | @intro f c c' p pieces rule parts ih =>
    have hpart {k : Node} (hk : ∃ t, .part t ∈ pieces ∧ k ∈ t.phrase.nodes)
        (hm : Node.Subtree m k) :
        (∃ loc name, m = .identifier loc name) ∨
          ∃ off t, Occurs ⟨f, c, p, codeOf pieces, c'⟩ off t ∧ t.phrase.IsOf m := by
      obtain ⟨t, ht, hk⟩ := hk
      rcases ih t ht hk hm with hname | ⟨off, u, hu, hof⟩
      · exact .inl hname
      · obtain ⟨pre, post, rfl⟩ := List.append_of_mem ht
        exact .inr ⟨_, u, .part rule parts hu, hof⟩
    rcases rule.nodes_covered n hn with hcovered | ⟨hof, hchildren⟩
    · exact hpart hcovered hm
    · cases hm with
      | root => exact .inr ⟨0, _, .whole (.intro rule parts), hof⟩
      | under hk hm =>
        rcases hchildren _ hk with ⟨loc, name, rfl⟩ | hcovered
        · cases hm with
          | root => exact .inl ⟨loc, name, rfl⟩
          | under hbelow => cases hbelow
        · exact hpart hcovered hm

/-- A phrase inside of lowered code has one entry and one exit. -/
theorem Occurs.singleEntryExit {s t : Segment} {off : Nat} (h : Occurs s off t)
    (hw : WellStructured s.code) : SingleEntryExit s.code off (off + t.code.length) :=
  .of_closed hw.once h.inward h.outward fun _ _ hspan => h.functionSpan_mem_iff hw.flat hspan

/-- Jumps stay in their function. -/
theorem target_inside_iff {s : Segment} (h : Lowers s) (hw : WellStructured s.code) {p q k m : Nat}
    {label : Option String} (hspan : FunctionSpan s.code p q) (hk : TargetsAt s.code k label)
    (hm : DefinesAt s.code m label) : k ∈ Ioo p q ↔ m ∈ Ioo p q := by
  -- The function is a phrase, and neither its first nor its last instruction is a jump or a label.
  obtain ⟨off, t, ht, htspan, ⟨-, rfl⟩ | ⟨hne, -⟩⟩ := h.function_of_opAt hspan.1 (.inl rfl)
  · have hpos := htspan.1.lt_length
    have hq : q = p + (t.code.length - 1) := by
      have hlifted := ht.functionSpan htspan
      exact hspan.unique hlifted
    have hseg := ht.singleEntryExit hw
    have hkp : k ≠ p := by
      rintro rfl
      exact hk.not_opAt rfl hspan.1
    have hkq : k ≠ q := by
      rintro rfl
      exact hk.not_opAt rfl hspan.opAt
    have hmp : m ≠ p := by
      rintro rfl
      cases opAt_unique hm.opAt hspan.1
    have hmq : m ≠ q := by
      rintro rfl
      cases opAt_unique hm.opAt hspan.opAt
    constructor
    · intro hin
      obtain ⟨m', hm', hdef⟩ := hseg.inward k (by rw [mem_Ioo] at hin; rw [mem_Ico]; omega) label hk
      obtain rfl := hw.once m m' label hm hdef
      rw [mem_Ico] at hm'
      rw [mem_Ioo]
      omega
    · intro hin
      have hk' := hseg.outward k label hk m (by rw [mem_Ioo] at hin; rw [mem_Ico]; omega) hm
      rw [mem_Ico] at hk'
      rw [mem_Ioo]
      omega
  · cases hne

/-- The right operand of a logical operator in the operator's code: a conditional jump stands before
it, and the instruction after it is no label. -/
theorem Lowers.rightOperand {f : Bool} {c c' : Counters} {loc : Option Location} {operator : String}
    {left right : Node} {value : Operand} {code : List Instruction}
    (h : Lowers ⟨f, c, .expr (.logical loc operator left right) value, code, c'⟩) :
    ∃ k u rhs label,
      Occurs ⟨f, c, .expr (.logical loc operator left right) value, code, c'⟩ (k + 1) u ∧
      u.phrase = .expr right rhs ∧ k + 1 + u.code.length < code.length ∧ BranchesAt code k label ∧
      ((operator = "&&" ∧ OpAt code k .jumpIfFalse) ∨ (operator = "||" ∧ OpAt code k .jumpIfTrue)) ∧
      ¬ OpAt code (k + 1 + u.code.length) .label := by
  cases h with
  | intro rule parts =>
    cases rule with
    | @logical _ _ c₁ _ loc operator skip left right lhs rhs leftCode rightCode hskip =>
      have hright := parts ⟨f, ⟨c₁.temps + 1, c₁.labels + 2⟩, .expr right rhs, rightCode, c'⟩
          (by simp)
      have hoccurs := @Occurs.part _ _ _ _ [.part ⟨f, c, .expr left lhs, leftCode, c₁⟩,
          .own (.cmp lhs (loc.getD .unknown)),
          .own (skip (labelName c₁.labels) (loc.getD .unknown))]
        _ _ _ _ (.logical hskip) parts (.whole hright)
      refine ⟨leftCode.length + 1, _, rhs, some (labelName c₁.labels), by simpa using hoccurs, rfl,
        ?_⟩
      generalize hcode : codeOf _ = code
      simp only [codeOf_part, codeOf_own, codeOf_nil] at hcode
      have hlength : leftCode.length + 1 + 1 + rightCode.length < code.length := by
        simp only [← hcode, List.length_append, List.length_cons]
        omega
      have hjump : code[leftCode.length + 1]? =
          some (skip (labelName c₁.labels) (loc.getD .unknown)) := by
        rw [← hcode, List.getElem?_append_right (by omega)]
        simp
      have hstore : OpAt code (leftCode.length + 1 + 1 + rightCode.length) .mov := by
        refine ⟨.mov (tempName c₁.temps) rhs (loc.getD .unknown), ?_, rfl⟩
        rw [← hcode, List.getElem?_append_right (by omega)]
        have hindex : leftCode.length + 1 + 1 + rightCode.length - leftCode.length =
            rightCode.length + 1 + 1 := by omega
        simp only [hindex, List.getElem?_cons_succ]
        simp
      have hlabel : ¬ OpAt code (leftCode.length + 1 + 1 + rightCode.length) .label := by
        intro hlabel
        cases opAt_unique hstore hlabel
      obtain ⟨rfl, rfl⟩ | ⟨rfl, rfl⟩ := shortCut?_eq_some.mp hskip
      · exact ⟨hlength, ⟨_, hjump, rfl, rfl⟩, .inl ⟨rfl, _, hjump, rfl⟩, hlabel⟩
      · exact ⟨hlength, ⟨_, hjump, rfl, rfl⟩, .inr ⟨rfl, _, hjump, rfl⟩, hlabel⟩

end Sil.Lowering

namespace Sil
open Lowering Streams Set

/-- Lowered code and the flow of control. Every node of a tree that lowers, unless it only stands
for a name, is lowered to one segment of the code; every segment that is lowered has one entry and
one exit. The right operand of a logical operator is fallen into from the conditional jump of the
operator, and is reached in no other way. Jumps stay in their function. -/
theorem lowered_segments_have_one_entry_and_exit {limits : Limits} (tree : Node)
    {code : List Instruction} {c : Counters} (h : tree.lowerCounting limits = .ok (code, c)) :
    (∀ n, Node.Subtree n tree → (∀ loc name, n ≠ .identifier loc name) →
      ∃ off t, Occurs (.ofTree tree code c) off t ∧ t.phrase.IsOf n) ∧
    (∀ off t, Occurs (.ofTree tree code c) off t →
      (∃ room, t.IsLowered room) ∧
      (∃ before behind, code = before ++ (t.code ++ behind) ∧ before.length = off) ∧
      SingleEntryExit code off (off + t.code.length)) ∧
    (∀ off t loc operator left right value, Occurs (.ofTree tree code c) off t →
      t.phrase = .expr (.logical loc operator left right) value →
      ∃ k u rhs, Occurs (.ofTree tree code c) (k + 1) u ∧ u.phrase = .expr right rhs ∧
        off ≤ k ∧ k + 1 + u.code.length < off + t.code.length ∧
        ((operator = "&&" ∧ OpAt code k .jumpIfFalse) ∨
          (operator = "||" ∧ OpAt code k .jumpIfTrue)) ∧
        FallsInto code (k + 1) (k + 1 + u.code.length) ∧
        ∀ p q, Relation.ReflTransGen (Flows code) p q → p ∉ Icc (k + 1) (k + 1 + u.code.length) →
          q ∈ Icc (k + 1) (k + 1 + u.code.length) →
          Relation.ReflTransGen (Flows code) p k ∧ Relation.ReflTransGen (Flows code) (k + 1) q) ∧
    ∀ p q k m label, FunctionSpan code p q → TargetsAt code k label → DefinesAt code m label →
      (k ∈ Ioo p q ↔ m ∈ Ioo p q) := by
  have hlowers := lowers_ofTree h
  have hw : WellStructured code := wellStructured_of_lower (lower_of_lowerCounting h)
  refine ⟨fun n hn hname => ?_, fun off t ht => ?_, ?_, ?_⟩
  · rcases hlowers.occurs_of_subtree (List.mem_singleton_self tree) hn with
      ⟨loc, name, rfl⟩ | hoccurs
    · exact absurd rfl (hname loc name)
    · exact hoccurs
  · obtain ⟨r, hr⟩ := ht.lowers.isLowered
    exact ⟨⟨r, hr r le_rfl⟩, ht.code, ht.singleEntryExit hw⟩
  · intro off t loc operator left right value ht hphrase
    obtain ⟨f, c₀, phrase, tCode, c₁⟩ := t
    dsimp only at hphrase
    subst hphrase
    obtain ⟨k, u, rhs, label, hu, hphrase, hlength, hbranch, hop, hlabel⟩ := ht.lowers.rightOperand
    have hinside : Occurs (.ofTree tree code c) (off + k + 1) u := ht.trans hu
    have hk : k < tCode.length := by omega
    have hbranch : BranchesAt code (off + k) label := by
      unfold BranchesAt at hbranch ⊢
      rwa [← ht.getElem? hk] at hbranch
    have hlabel : ¬ OpAt code (off + k + 1 + u.code.length) .label := by
      rw [← ht.opAt_iff hlength] at hlabel
      rwa [Nat.add_assoc, Nat.add_assoc, ← Nat.add_assoc k]
    have hfalls := (hinside.singleEntryExit hw).fallsInto hbranch rfl hlabel
    refine ⟨off + k, u, rhs, hinside, hphrase, by omega, by dsimp only; omega, ?_, hfalls, ?_⟩
    · rw [← ht.opAt_iff hk, ← ht.opAt_iff hk] at hop
      exact hop
    · intro p q hpath hp hq
      exact hfalls.path hpath hp hq
  · intro p q k m label hspan hk hm
    exact target_inside_iff hlowers hw hspan hk hm

/-- `b || c` -/
def eitherOr : Node := .logical none "||" (.identifier none "b") (.identifier none "c")

/-- `function f() { a && (b || c); }` -/
def nestedOperators : Node :=
  .function none (.identifier none "f") []
    (.block none [.expression none (.logical none "&&" (.identifier none "a") eitherOr)])

theorem nestedOperators_have_one_entry_and_exit :
    ∃ code c, nestedOperators.lowerCounting {} = .ok (code, c) ∧ FunctionSpan code 0 15 ∧
      (∃ off t, Occurs (.ofTree nestedOperators code c) off t ∧ t.phrase.IsOf eitherOr ∧
        SingleEntryExit code off (off + t.code.length)) ∧
      ∀ k m label, TargetsAt code k label → DefinesAt code m label →
        (k ∈ Ioo 0 15 ↔ m ∈ Ioo 0 15) := by
  have hlower : ∃ code c, nestedOperators.lowerCounting {} = .ok (code, c) ∧
      FunctionSpan code 0 15 :=
    ⟨_, _, rfl, ⟨_, rfl, rfl⟩, _, rfl, rfl⟩
  obtain ⟨code, c, hcode, hspan⟩ := hlower
  have hsub : Node.Subtree eitherOr nestedOperators :=
    .under (.tail _ (.head _)) (.under (.head _) (.under (.head _) (.child (.tail _ (.head _)))))
  obtain ⟨hsubtrees, hsegments, -, hfunctions⟩ :=
    lowered_segments_have_one_entry_and_exit nestedOperators hcode
  obtain ⟨off, t, ht, hof⟩ := hsubtrees eitherOr hsub (by simp [eitherOr])
  exact ⟨code, c, hcode, hspan, ⟨off, t, ht, hof, (hsegments off t ht).2.2⟩,
    fun k m label hk hm => hfunctions 0 15 k m label hspan hk hm⟩

end Sil
