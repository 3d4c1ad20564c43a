import Mathlib
import Sil.Proofs.Computation
import Sil.Proofs.LoweredStructure

/-!
Lowering keeps the meaning of a tree. Where no variable has the name of a temporary, and no operator
changes the variable that holds its left operand, the code of a tree ends exactly when the tree
does, with the same outcome and with the same values of all variables.
-/
namespace Sil
open Counters Lowering Streams

/-- A node whose variables survive lowering: a name that is no temporary, and an operator that
leaves the variable of its left operand alone. -/
def Node.Faithful : Node → Prop
  | .identifier _ name => isTemporary name = false
  | .binary _ _ left right => ∀ x, left.variable? = some x → ¬ right.Assigns x
  | _ => True

namespace Lowering

variable {f : Bool} {c c' : Counters} {n : Node} {value : Operand} {code program : List Instruction}

theorem variable_isTemporary {x : String} (hn : (Phrase.expr n value).Throughout Node.Faithful)
    (hx : n.variable? = some x) : isTemporary x = false := by
  have hroot := hn n (List.mem_singleton_self n)
  cases n with
  | identifier loc name =>
    cases hx
    exact hroot _ (.root _)
  | assignment loc operator left right =>
    cases left with
    | identifier targetLoc target =>
      cases hx
      exact hroot (.identifier targetLoc _) (.child (by simp [Node.children]))
    | _ => cases hx
  | _ => cases hx

/-- An operand keeps its value over an expression that does not assign its variable. -/
theorem operand_survives {V : Type*} {I : Interpretation V} {right : Node} {m₁ m₂ e₁ e₂ : Env V}
    {w : V} (h : Lowers ⟨f, c, .expr n value, code, c'⟩)
    (hn : (Phrase.expr n value).Throughout Node.Faithful)
    (hright : ∀ x, n.variable? = some x → ¬ right.Assigns x) (hm₁ : Agree m₁ e₁) (hm₂ : Agree m₂ e₂)
    (heval : I.eval right e₁ = some (w, e₂))
    (hkeep : ∀ k < c'.temps, m₂ (tempName k) = m₁ (tempName k)) :
    I.operand m₂ value = I.operand m₁ value := by
  rcases value_cases h with ⟨loc, v, raw, spelling, -, rfl⟩ | ⟨x, hx, rfl⟩ | ⟨k, hk, rfl⟩
  · rfl
  · have hplain := variable_isTemporary hn hx
    have hsame : m₂ x = m₁ x := calc
      m₂ x = e₂ x := hm₂ x hplain
      _ = e₁ x := I.eval_keeps right heval (hright x hx)
      _ = m₁ x := (hm₁ x hplain).symm
    exact congrArg some hsame
  · exact congrArg some (hkeep k hk)

private theorem own_not_function {c c' : Counters} {p : Phrase} {pieces : List Piece}
    (rule : Rule true c p pieces c') :
    EachOwn (fun i => i.opcode ≠ .func ∧ i.opcode ≠ .endFunc) pieces := by
  cases rule with
  | logical h => obtain ⟨-, rfl⟩ | ⟨-, rfl⟩ := shortCut?_eq_some.mp h <;> simp [EachOwn]
  | _ => simp [EachOwn]

private theorem part_inFunction {c c' : Counters} {p : Phrase} {pieces : List Piece}
    (rule : Rule true c p pieces c') : EachPart (·.inFunction = true) pieces := by
  cases rule <;> simp [EachPart]

/-- No function begins or ends in the code of a function's body. -/
theorem not_function_of_inFunction {s : Segment} (h : Lowers s) (hs : s.inFunction = true) :
    ∀ i ∈ s.code, i.opcode ≠ .func ∧ i.opcode ≠ .endFunc := by
  induction h with
  | intro rule parts ih =>
    cases hs
    intro i hi
    obtain hi | ⟨t, ht, hi⟩ := mem_codeOf.mp hi
    · exact eachOwn_iff.mp (own_not_function rule) i hi
    · exact ih t ht (eachPart_iff.mp (part_inFunction rule) t ht) i hi

end Lowering

namespace Interpretation

variable {V : Type*} (I : Interpretation V) (program : List Instruction)

def Means (p q low : Nat) : Phrase → Prop
  | .expr n value => I.Computes program p q n value low
  | .stmt n => I.Implements program p q (I.Executes n)
  | .stmts ns => I.Implements program p q (I.ExecutesAll ns)
  | .update n => I.Implements program p q (I.loopUpdate n)

def Correct (s : Segment) : Prop :=
  ∀ ⦃p q : Nat⦄, Placed program p s.code → q = p + s.code.length →
    I.Means program p q s.before.temps s.phrase

variable {I program}

private theorem executes_of_lowers {f : Bool} {c c' : Counters} {n : Node} {value : Operand}
    {code : List Instruction} (h : Lowers ⟨f, c, .expr n value, code, c'⟩) :
    I.Executes n = I.evaluated n := by
  cases h with
  | intro rule parts => cases rule <;> simp only [Executes]

private theorem correct_expression
    (lands : ∀ {k x}, program[k]? = some (.mark x) → landing program (some x) = some k)
    {f c n value pieces c'} (rule : Rule f c (.expr n value) pieces c')
    (parts : EachPart Lowers pieces) (faithful : (Phrase.expr n value).Throughout Node.Faithful)
    (ih : EachPart (I.Correct program) pieces) :
    I.Correct program ⟨f, c, .expr n value, codeOf pieces, c'⟩ := by
  have hroot := faithful n (List.mem_singleton_self n)
  have below := rule.throughout faithful
  intro p q hp hq
  cases rule with
  | literal h =>
    obtain ⟨spelling, rfl⟩ := literal_eq_ok h
    cases hq
    exact .literal
  | identifier =>
    cases hq
    exact .identifier (hroot _ (.root _))
  | @binary _ _ c₁ c₂ loc operator op left right lhs rhs leftCode rightCode h =>
    obtain ⟨hl, hr, -⟩ := ih
    obtain ⟨ll, lr, -⟩ := parts
    simp only [codeOf_part, codeOf_own, Placed.append_iff, Placed.cons_iff] at hp
    obtain ⟨pl, pr, hown, -⟩ := hp
    -- The right operand may assign, but not to the variable that holds the left one.
    have hstable := hroot _ (.root _)
    obtain rfl : q = p + leftCode.length + rightCode.length + 1 := by
      simp at hq
      omega
    exact .binary h (hl pl rfl) (hr pr rfl) (operand_survives ll below.1 hstable)
      (counters_le ll).1 (counters_le lr).1 hown
  | @logical _ _ c₁ c₂ loc operator skip left right lhs rhs leftCode rightCode h =>
    obtain ⟨hl, hr, -⟩ := ih
    obtain ⟨ll, -⟩ := parts
    simp only [codeOf_part, codeOf_own, Placed.append_iff, Placed.cons_iff] at hp
    obtain ⟨pl, hcmp, hjump, pr, hmov, hover, hshort, hmov', hdone, -⟩ := hp
    obtain rfl : q = p + leftCode.length + 2 + rightCode.length + 5 := by
      simp at hq
      omega
    have hle := (counters_le ll).1
    exact .logical h (hl pl rfl) (hr pr rfl) (Nat.le_succ_of_le hle) hle hcmp hjump hmov hover
      hshort
      hmov' hdone (lands hshort) (lands hdone)
  | @assignment _ _ _ loc targetLoc target right value code =>
    obtain ⟨hr, -⟩ := ih
    simp only [codeOf_part, codeOf_own, Placed.append_iff, Placed.cons_iff] at hp
    obtain ⟨pr, hown, -⟩ := hp
    have htarget : isTemporary target = false := variable_isTemporary faithful rfl
    obtain rfl : q = p + code.length + 1 := by
      simp at hq
      omega
    exact .assignment htarget (hr pr rfl) hown

private theorem implements_function {loc : Location} {name : String} {c c' : Counters} {body : Node}
    {params : List Node} {paramCode code : List Instruction} {p : Nat}
    (h : parameters params = .ok paramCode) (hbody : Lowers ⟨true, c, .stmt body, code, c'⟩)
    (hfunc : program[p]? = some (.func name loc))
    (hcode : Placed program (p + 1) (paramCode ++ code))
    (hend : program[p + 1 + (paramCode ++ code).length]? = some (.endFunc loc)) :
    I.Implements program p (p + 1 + (paramCode ++ code).length + 1) Effect.skip := by
  have hplain (i : Instruction) (hi : i ∈ paramCode ++ code) :
      i.opcode ≠ .func ∧ i.opcode ≠ .endFunc := by
    rcases List.mem_append.mp hi with hi | hi
    · obtain ⟨loc', x, -, rfl⟩ := parameters_eq_ok h i hi
      simp
    · exact not_function_of_inFunction hbody rfl i hi
  have hinside (m : Nat) (hm : m < (paramCode ++ code).length) (op : Opcode)
      (hop : OpAt (program.drop (p + 1)) m op) : op ≠ .func ∧ op ≠ .endFunc := by
    obtain ⟨i, hi, rfl⟩ := opAt_drop.mp hop
    have hget := hcode m _ (List.getElem?_eq_getElem hm)
    cases hi.symm.trans hget
    exact hplain _ (List.getElem_mem hm)
  have hmatch : matchingEnd 0 (program.drop (p + 1)) = some (paramCode ++ code).length := by
    apply matchingEnd_of_first
    · intro m hm hop
      exact (hinside m hm .func hop).1 rfl
    · intro m hm hop
      exact (hinside m hm .endFunc hop).2 rfl
    · exact opAt_drop.mpr ⟨_, hend, rfl⟩
  exact Implements.skip.goingOn fun m => .one (step_func hfunc hmatch)

variable {p q r low : Nat} {n : Node} {value : Operand} {loc : Option Location} {place : Location}
  {name label done : String} {T : Env V → Bool → Env V → Prop} {X : Effect V}

private theorem implements_declare {nameLoc : Option Location}
    (h : program[p]? = some (.decl name place)) :
    I.Implements program p (p + 1)
      (I.Executes (.declarator loc (.identifier nameLoc name) none)) := by
  refine .of_total fun m e hm => ?_
  refine ⟨.normal, I.declare name e, I.declare name m, fun o e₁ => ?_, .one (step_decl h),
    I.declare_agree name m e hm⟩
  simp only [Executes]

private theorem implements_initialise {nameLoc : Option Location}
    (h : program[p]? = some (.decl name place)) (hn : I.Computes program (p + 1) q n value low)
    (hmov : program[q]? = some (.mov name value place)) :
    I.Implements program p (q + 1)
      (I.Executes (.declarator loc (.identifier nameLoc name) (some n))) := by
  refine .of_total fun m e hm => ?_
  obtain ⟨v, e', m', heval, hreach, hm', hv, -⟩ := hn (I.declare_agree name m e hm)
  refine ⟨.normal, Function.update e' name v, Function.update m' name v, fun o e₁ => ?_, ?_,
    hm'.update name v⟩
  · simp [Executes, heval]
  · exact ((Reaches.one (step_decl h)).trans hreach).step (step_mov hmov hv)

private theorem implements_ret (h : program[p]? = some (.ret none place)) :
    I.Implements program p q (I.Executes (.ret loc none)) := by
  refine .of_total fun m e hm => ?_
  refine ⟨.returned none, e, m, fun o e₁ => ?_, ⟨_, .refl, step_ret h⟩, hm⟩
  simp only [Executes]

private theorem implements_retValue (hn : I.Computes program p q n value low)
    (h : program[q]? = some (.ret (some value) place)) :
    I.Implements program p r (I.Executes (.ret loc (some n))) := by
  refine .of_total fun m e hm => ?_
  obtain ⟨v, e', m', heval, hreach, hm', hv, -⟩ := hn hm
  refine ⟨.returned (some v), e', m', fun o e₁ => ?_, ⟨_, hreach, step_ret_value h hv⟩, hm'⟩
  simp only [Executes, heval, Option.some.injEq, Prod.mk.injEq]
  constructor
  · rintro ⟨_, ⟨rfl, rfl⟩, rfl⟩
    exact ⟨rfl, rfl⟩
  · rintro ⟨rfl, rfl⟩
    exact ⟨v, ⟨rfl, rfl⟩, rfl⟩

/-- A loop in its frame: the label of its start, the jump back and the label of its end. -/
private theorem implements_loop (hstart : program[p]? = some (.mark label))
    (hlands : landing program (some label) = some p)
    (htest : I.Branches program (p + 1) q (r + 1) T) (hround : I.Implements program q r X)
    (hback : program[r]? = some (.jump label place)) (hdone : program[r + 1]? = some (.mark done)) :
    I.Implements program p (r + 2) (Effect.Repeating T X) := by
  have hfrom : I.Branches program p q (r + 1) T := htest.comingFrom fun m => .one (step_mark hstart)
  have hloop := Implements.repeating hfrom hround fun m => step_jump hback hlands
  exact hloop.goingOn fun m => .one (step_mark hdone)

private theorem correct_statement
    (lands : ∀ {k x}, program[k]? = some (.mark x) → landing program (some x) = some k)
    {f c n pieces c'} (rule : Rule f c (.stmt n) pieces c') (parts : EachPart Lowers pieces)
    (ih : EachPart (I.Correct program) pieces) :
    I.Correct program ⟨f, c, .stmt n, codeOf pieces, c'⟩ := by
  have past {k : Nat} {x : String} (h : program[k]? = some (.mark x)) (m : Env V) :
      I.Reaches program ⟨k, m, none⟩ ⟨k + 1, m, none⟩ := .one (step_mark h)
  intro p q hp hq
  show I.Implements program p q (I.Executes n)
  cases rule with
  | program | block | declaration =>
    obtain ⟨hbody, -⟩ := ih
    simp only [codeOf_part, codeOf_nil, List.append_nil] at hp hq
    rw [Executes]
    exact hbody hp hq
  | declare =>
    simp only [codeOf_own, codeOf_nil, Placed.cons_iff] at hp
    cases hq
    exact implements_declare hp.1
  | @initialise _ _ _ loc nameLoc name init value code =>
    obtain ⟨hinit, -⟩ := ih
    simp only [codeOf_part, codeOf_own, Placed.append_iff, Placed.cons_iff] at hp
    obtain ⟨hdecl, pinit, hmov, -⟩ := hp
    obtain rfl : q = p + 1 + code.length + 1 := by
      simp at hq
      omega
    exact implements_initialise hdecl (hinit pinit rfl) hmov
  | expression =>
    obtain ⟨he, -⟩ := ih
    simp only [codeOf_part, codeOf_nil, List.append_nil] at hp hq
    rw [Executes]
    exact (he hp hq).implements
  | bare =>
    obtain ⟨he, -⟩ := ih
    obtain ⟨hlowers, -⟩ := parts
    simp only [codeOf_part, codeOf_nil, List.append_nil] at hp hq
    rw [executes_of_lowers hlowers]
    exact (he hp hq).implements
  | @conditional _ _ _ _ loc test consequent tested testCode code =>
    obtain ⟨htest, hyes, -⟩ := ih
    simp only [codeOf_part, codeOf_own, Placed.append_iff, Placed.cons_iff] at hp
    obtain ⟨ptest, hcmp, hjump, pyes, hmark, -⟩ := hp
    obtain rfl : q = p + testCode.length + 2 + code.length + 1 := by
      simp at hq
      omega
    rw [Executes]
    exact .choose ((htest ptest rfl).branches hcmp hjump (lands hmark))
      (.goingOn (hyes pyes rfl) (past hmark)) (Implements.skip.goingOn (past hmark))
  | @alternative _ _ _ _ _ loc test consequent alternate tested testCode code elseCode =>
    obtain ⟨htest, hyes, hno, -⟩ := ih
    simp only [codeOf_part, codeOf_own, Placed.append_iff, Placed.cons_iff] at hp
    obtain ⟨ptest, hcmp, hjump, pyes, hover, hmark, pno, hdone, -⟩ := hp
    obtain rfl : q = p + testCode.length + 2 + code.length + 2 + elseCode.length + 1 := by
      simp at hq
      omega
    rw [Executes]
    exact .choose ((htest ptest rfl).branches hcmp hjump (lands hmark))
      (.goingOn (hyes pyes rfl) fun m =>
        (Reaches.one (step_jump hover (lands hdone))).trans (past hdone m))
      (.comingFrom (past hmark) (.goingOn (hno pno rfl) (past hdone)))
  | @whileLoop _ _ _ _ loc test body tested testCode code =>
    obtain ⟨htest, hbody, -⟩ := ih
    simp only [codeOf_part, codeOf_own, Placed.append_iff, Placed.cons_iff] at hp
    obtain ⟨hstart, ptest, hcmp, hjump, pbody, hback, hdone, -⟩ := hp
    obtain rfl : q = p + 1 + testCode.length + 2 + code.length + 2 := by
      simp at hq
      omega
    rw [Executes]
    exact implements_loop hstart (lands hstart)
      ((htest ptest rfl).branches hcmp hjump (lands hdone)) (hbody pbody rfl) hback hdone
  | @forLoop _ _ _ _ _ _ loc init test update body tested initCode testCode code updateCode =>
    obtain ⟨hinit, htest, hbody, hupdate, -⟩ := ih
    simp only [codeOf_part, codeOf_own, Placed.append_iff, Placed.cons_iff] at hp
    obtain ⟨pinit, hstart, ptest, hcmp, hjump, pbody, pupdate, hback, hdone, -⟩ := hp
    obtain rfl : q = p + initCode.length + 1 + testCode.length + 2 + code.length +
        updateCode.length + 2 := by
      simp at hq
      omega
    rw [executes_forLoop]
    exact .andThen (hinit pinit rfl) (implements_loop hstart (lands hstart)
      ((htest ptest rfl).branches hcmp hjump (lands hdone))
      (.andThen (hbody pbody rfl) (hupdate pupdate rfl)) hback hdone)
  | @endlessLoop _ _ _ _ _ loc init update body initCode code updateCode =>
    obtain ⟨hinit, hbody, hupdate, -⟩ := ih
    simp only [codeOf_part, codeOf_own, Placed.append_iff, Placed.cons_iff] at hp
    obtain ⟨pinit, hstart, pbody, pupdate, hback, hdone, -⟩ := hp
    obtain rfl : q = p + initCode.length + 1 + code.length + updateCode.length + 2 := by
      simp at hq
      omega
    rw [executes_forLoop]
    exact .andThen (hinit pinit rfl) (implements_loop hstart (lands hstart)
      (fun m e hm => ⟨true, e, m, fun _ _ => Iff.rfl, .refl, hm⟩)
      (.andThen (hbody pbody rfl) (hupdate pupdate rfl)) hback hdone)
  | @function _ _ loc nameLoc name params body paramCode code h =>
    obtain ⟨lbody, -⟩ := (eachPart_own _ _).mp parts
    simp only [List.cons_append, codeOf_own, codeOf_append, codeOf_map_own, codeOf_part, codeOf_nil,
      Placed.cons_iff] at hp
    rw [← List.append_assoc, Placed.append_iff, Placed.cons_iff] at hp
    obtain ⟨hfunc, pcode, hend, -⟩ := hp
    obtain rfl : q = p + 1 + (paramCode ++ code).length + 1 := by
      simp at hq ⊢
      omega
    rw [Executes]
    exact implements_function h lbody hfunc pcode hend
  | ret =>
    simp only [codeOf_own, codeOf_nil, Placed.cons_iff] at hp
    exact implements_ret hp.1
  | retValue =>
    obtain ⟨hvalue, -⟩ := ih
    simp only [codeOf_part, codeOf_own, Placed.append_iff, Placed.cons_iff] at hp
    obtain ⟨pvalue, hret, -⟩ := hp
    exact implements_retValue (hvalue pvalue rfl) hret

/-- Code that is lowered from faithful nodes does what they mean, in any program where labels are
unique. -/
theorem correct_of_lowers
    (once : ∀ j m label, DefinesAt program j label → DefinesAt program m label → j = m)
    {s : Segment} (h : Lowers s) (faithful : s.phrase.Throughout Node.Faithful) :
    I.Correct program s := by
  have lands {k : Nat} {x : String} (h : program[k]? = some (.mark x)) :
      landing program (some x) = some k := landing_eq (fun j m => once j m _) ⟨_, h, rfl, rfl⟩
  induction h with
  | @intro f c c' phrase pieces rule parts ih =>
    have hparts : EachPart (I.Correct program) pieces :=
      eachPart_iff.mpr fun t ht => ih t ht (eachPart_iff.mp (rule.throughout faithful) t ht)
    replace parts := eachPart_iff.mpr parts
    cases phrase with
    | expr n value => exact correct_expression lands rule parts faithful hparts
    | stmt n => exact correct_statement lands rule parts hparts
    | stmts ns =>
      intro p q hp hq
      show I.Implements program p q (I.ExecutesAll ns)
      cases rule with
      | nil =>
        cases hq
        rw [ExecutesAll]
        exact .skip
      | @cons _ _ _ _ n rest code restCode =>
        obtain ⟨hfirst, hrest, -⟩ := hparts
        simp only [codeOf_part, codeOf_nil, List.append_nil, Placed.append_iff] at hp
        obtain rfl : q = p + code.length + restCode.length := by
          simp at hq
          omega
        rw [ExecutesAll]
        exact .andThen (hfirst hp.1 rfl) (hrest hp.2 rfl)
    | update n =>
      intro p q hp hq
      cases rule with
      | noUpdate =>
        cases hq
        exact Implements.skip
      | someUpdate =>
        obtain ⟨hupdate, -⟩ := hparts
        simp only [codeOf_part, codeOf_nil, List.append_nil] at hp hq
        exact (hupdate hp hq).implements

end Interpretation

/-- Lowering preserves meaning, for any values, operations and truth test: a tree ends with an
outcome and an environment exactly when its code, run from the first instruction, ends with that
outcome and an environment that differs in temporaries at most. -/
theorem lowering_preserves_meaning {limits : Limits} {V : Type*} (I : Interpretation V)
    {tree : Node} {code : List Instruction} (h : tree.lower limits = .ok code)
    (hnames : ∀ loc name, (Node.identifier loc name).Subtree tree → isTemporary name = false)
    (hoperands : ∀ loc operator left right x,
      (Node.binary loc operator left right).Subtree tree → left.variable? = some x →
        ¬ right.Assigns x)
    (e₀ e : Env V) (o : Outcome V) :
    (∃ e₁, I.Executes tree e₀ o e₁ ∧ Agree e₁ e) ↔ ∃ e₂, I.Halts code e₀ o e₂ ∧ Agree e₂ e := by
  obtain ⟨c, hlowers⟩ := lowers_of_lower h
  have faithful : (Phrase.stmt tree).Throughout Node.Faithful := by
    intro n hn m hm
    rw [Phrase.nodes, List.mem_singleton] at hn
    subst hn
    cases m with
    | identifier loc name => exact hnames loc name hm
    | binary loc operator left right => exact fun x => hoperands loc operator left right x hm
    | _ => exact trivial
  have hcode : I.Implements code 0 code.length (I.Executes tree) :=
    Interpretation.correct_of_lowers (wellStructured_of_lower h).once hlowers faithful
      (Placed.whole code) (Nat.zero_add _).symm
  constructor
  · rintro ⟨e₁, hexec, he₁⟩
    obtain ⟨e₂, hhalts, he₂⟩ := hcode.halts hexec
    exact ⟨e₂, hhalts, he₂.trans he₁⟩
  · rintro ⟨e₂, ⟨k, hrun⟩, he₂⟩
    -- The tree ends somewhere; its code then ends there too, and a run ends in one way only.
    obtain ⟨o', e₁, hexec⟩ := hcode.ends (Agree.refl e₀) hrun
    obtain ⟨e₂', ⟨k', hrun'⟩, he₂'⟩ := hcode.halts hexec
    cases Interpretation.run_unique hrun hrun'
    exact ⟨e₁, hexec, he₂'.symm.trans he₂⟩

/-- Whole numbers, where zero counts as false. -/
def integers : Interpretation Int where
  literal
    | .int n => n
    | _ => 0
  operation
    | .add, v, w => v + w
    | .sub, v, w => v - w
    | .mul, v, w => v * w
    | .div, v, w => v / w
    | .lt, v, w => if v < w then 1 else 0
    | .gt, v, w => if v > w then 1 else 0
    | .lte, v, w => if v ≤ w then 1 else 0
    | .gte, v, w => if v ≥ w then 1 else 0
    | .eq, v, w => if v = w then 1 else 0
    | .neq, v, w => if v ≠ w then 1 else 0
  truthy v := v ≠ 0
  declare x e := Function.update e x 0
  declare_agree x _ _ h := h.update x 0

/-- A function, and a sum whose terms are counted down inside of it. -/
def triangle : Node :=
  let name (s : String) := Node.identifier none s
  .program none
    [.function none (name "f") [name "x"] (.block none [.ret none (some (name "x"))]),
      .whileLoop none (name "n")
        (.assignment none "=" (name "s") (.binary none "+" (name "s")
          (.assignment none "=" (name "n")
            (.binary none "-" (name "n") (.literal none (.int 1) "1"))))),
      .ret none (some (.logical none "||" (name "n") (name "s")))]

open Node in
private theorem triangle_faithful : ∀ m, Subtree m triangle → m.Faithful := by
  simp only [triangle, forall_subtree (n := .program _ _), forall_subtree (n := .function _ _ _ _),
    forall_subtree (n := .block _ _), forall_subtree (n := .whileLoop _ _ _),
    forall_subtree (n := .ret _ _), forall_subtree (n := .logical _ _ _ _),
    forall_subtree (n := .binary _ _ _ _), forall_subtree (n := .assignment _ _ _ _),
    forall_subtree (n := .identifier _ _), forall_subtree (n := .literal _ _ _), Node.children,
    List.cons_append, List.nil_append, List.forall_mem_cons, Option.toList_some, Node.Faithful,
    Node.variable?, not_assigns_iff]
  simp
  decide

/-- Counted down from four, the sum is three and two and one. -/
theorem triangle_meaning_preserved :
    ∃ code, triangle.lower {} = .ok code ∧
      (∀ e o, (∃ e₁, integers.Executes triangle (Function.update 0 "n" 4) o e₁ ∧ Agree e₁ e) ↔
        ∃ e₂, integers.Halts code (Function.update 0 "n" 4) o e₂ ∧ Agree e₂ e) ∧
      ∃ e, integers.Executes triangle (Function.update 0 "n" 4) (.returned (some 6)) e := by
  have hruns : ∃ code, triangle.lower {} = .ok code ∧
      ∃ e, integers.Halts code (Function.update 0 "n" 4) (.returned (some 6)) e :=
    ⟨_, rfl, _, 60, rfl⟩
  obtain ⟨code, hcode, e₂, hhalts⟩ := hruns
  have hmeaning (e : Env Int) (o : Outcome Int) :=
    lowering_preserves_meaning integers hcode (fun _ _ h => triangle_faithful _ h)
      (fun _ _ _ _ x h => triangle_faithful _ h x) (Function.update 0 "n" 4) e o
  obtain ⟨e, hexec, -⟩ := (hmeaning e₂ _).mpr ⟨e₂, hhalts, Agree.refl e₂⟩
  exact ⟨code, hcode, hmeaning, e, hexec⟩

end Sil
