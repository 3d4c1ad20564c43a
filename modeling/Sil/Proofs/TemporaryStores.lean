import Mathlib
import Sil.Proofs.DefiniteAssignment
import Sil.Proofs.Evaluation
import Sil.Proofs.OperandOrder

/-!
How often temporaries are written. Unless the source has a name of their form, only the instructions
of an operator write its temporary: one for a binary operator, two for a logical one. A walk through
the code of a logical operator executes exactly one of the two, which `progress` counts along the
walk. Main result: temporaries are definitely assigned.
-/
namespace Sil.Streams
open Set

/-- What neither jumps nor starts a function goes on to the next instruction. -/
theorem Flows.eq_next {is : List Instruction} {p q : Nat} {op : Opcode} (h : Flows is p q)
    (hop : OpAt is p op) (hjump : op.isJump = false) (hfunc : op ≠ .func) : q = p + 1 := by
  cases h with
  | next => rfl
  | target hfrom => exact absurd hop (hfrom.not_opAt hjump)
  | beyond hspan => exact absurd (opAt_unique hop hspan.1) hfunc

theorem Flows.of_branch {is : List Instruction} {p q : Nat} {label : Option String}
    (h : Flows is p q) (hbranch : BranchesAt is p label) :
    q = p + 1 ∨ DefinesAt is q label := by
  obtain ⟨i, hi, hcond, rfl⟩ := hbranch
  cases h with
  | next => exact .inl rfl
  | target hfrom hto =>
    obtain ⟨j, hj, -, rfl⟩ := hfrom
    cases hi.symm.trans hj
    exact .inr hto
  | beyond hspan =>
    obtain ⟨j, hj, hfunc⟩ := hspan.1
    cases hi.symm.trans hj
    rw [hfunc] at hcond
    cases hcond

theorem Flows.of_jump {is : List Instruction} {p q : Nat} {label : Option String} (h : Flows is p q)
    (hjump : JumpsAt is p label) : DefinesAt is q label := by
  obtain ⟨i, hi, hop, rfl⟩ := hjump
  cases h with
  | next hj hno =>
    cases hi.symm.trans hj
    exact absurd hop hno
  | target hfrom hto =>
    obtain ⟨j, hj, -, rfl⟩ := hfrom
    cases hi.symm.trans hj
    exact hto
  | beyond hspan => cases opAt_unique hspan.1 ⟨i, hi, hop⟩

theorem WritesAt.lt_length {is : List Instruction} {k : Nat} {x : String} (h : WritesAt is k x) :
    k < is.length := by
  obtain ⟨i, hi, -⟩ := h
  exact lt_length_of_getElem? hi

/-- A name that is written neither in front of a piece of code nor behind it. -/
theorem writesAt_between {xs ys zs : List Instruction} {m : Nat} {x : String}
    (hxs : ∀ i ∈ xs, i.dest ≠ some x) (hzs : ∀ i ∈ zs, i.dest ≠ some x) :
    WritesAt (xs ++ (ys ++ zs)) m x ↔ ∃ j, m = xs.length + j ∧ WritesAt ys j x := by
  constructor
  · rintro ⟨i, hi, hdest⟩
    by_cases hm : m < xs.length
    · rw [List.getElem?_append_left hm] at hi
      exact absurd hdest (hxs i (List.mem_of_getElem? hi))
    · obtain ⟨j, rfl⟩ := Nat.exists_eq_add_of_le (Nat.le_of_not_lt hm)
      rw [List.getElem?_append_right (by omega), Nat.add_sub_cancel_left] at hi
      by_cases hj : j < ys.length
      · rw [List.getElem?_append_left hj] at hi
        exact ⟨j, rfl, i, hi, hdest⟩
      · rw [List.getElem?_append_right (by omega)] at hi
        exact absurd hdest (hzs i (List.mem_of_getElem? hi))
  · rintro ⟨j, rfl, i, hi, hdest⟩
    refine ⟨i, ?_, hdest⟩
    rw [List.getElem?_append_right (by omega), Nat.add_sub_cancel_left,
      List.getElem?_append_left (lt_length_of_getElem? hi), hi]

/-- What a walk gains step by step is what it has gained at its end. -/
theorem Walk.telescope {is : List Instruction} {start q : Nat} {ps : List Nat}
    (h : Walk is start ps q) {f g : Nat → Nat}
    (hstep : ∀ p ∈ ps, ∀ q, Flows is p q → f q = f p + g p) :
    f q = f start + (ps.map g).sum := by
  induction h with
  | start => simp
  | @step ps p q _ hflow ih =>
    have hlast := hstep p (by simp) q hflow
    have hbefore := ih fun r hr => hstep r (List.mem_append_left _ hr)
    simp only [List.map_append, List.sum_append, List.map_cons, List.map_nil, List.sum_cons,
      List.sum_nil]
    omega

end Sil.Streams

namespace Sil.Lowering
open Counters Streams Set

theorem writesAt_storing {x short done : String} {lhs rhs : Operand} {loc : Location} {j : Nat} :
    WritesAt (storing x lhs rhs short done loc) j x ↔ j = 0 ∨ j = 3 := by
  constructor
  · rintro ⟨i, hi, hdest⟩
    rcases j with _ | _ | _ | _ | _ | j
    · exact .inl rfl
    · cases hi
      cases hdest
    · cases hi
      cases hdest
    · exact .inr rfl
    · cases hi
      cases hdest
    · cases hi
  · rintro (rfl | rfl) <;> exact ⟨_, rfl, rfl⟩

def Phrase.HasNoTemps (p : Phrase) : Prop :=
  p.Throughout fun n => ∀ k, n.identifier? ≠ some (tempName k)

/-- An instruction that a rule adds writes a name of its phrase or the temporary of its phrase. -/
theorem Rule.own_dest {f : Bool} {c c' : Counters} {p : Phrase} {pieces : List Piece}
    (rule : Rule f c p pieces c') : EachOwn (fun i => ∀ x, i.dest = some x →
      (∃ n ∈ p.nodes, n.Names x) ∨ ∃ n, p = .expr n (.temp x)) pieces := by
  have quiet {i : Instruction} {Q : String → Prop} (hi : i.dest = none) :
      ∀ x, i.dest = some x → Q x := by
    intro x hx
    rw [hi] at hx
    cases hx
  cases rule with
  | literal | identifier | program | block | declaration | expression | bare | nil | cons | noUpdate
    | someUpdate => trivial
  | declare | ret | retValue => exact ⟨quiet rfl, trivial⟩
  | conditional | endlessLoop => exact ⟨quiet rfl, quiet rfl, quiet rfl, trivial⟩
  | alternative | whileLoop | forLoop =>
    exact ⟨quiet rfl, quiet rfl, quiet rfl, quiet rfl, quiet rfl, trivial⟩
  | binary =>
    refine ⟨fun x hx => ?_, trivial⟩
    cases hx
    exact .inr ⟨_, rfl⟩
  | logical h =>
    refine ⟨quiet rfl, ?_, fun x hx => ?_, quiet rfl, quiet rfl, fun x hx => ?_, quiet rfl, trivial⟩
    · obtain ⟨-, rfl⟩ | ⟨-, rfl⟩ := shortCut?_eq_some.mp h <;> exact quiet rfl
    · cases hx
      exact .inr ⟨_, rfl⟩
    · cases hx
      exact .inr ⟨_, rfl⟩
  | assignment =>
    refine ⟨fun x hx => ?_, trivial⟩
    cases hx
    exact .inl ⟨_, List.mem_singleton_self _, _, .child (List.mem_cons_self ..)⟩
  | initialise =>
    refine ⟨quiet rfl, fun x hx => ?_, trivial⟩
    cases hx
    exact .inl ⟨_, List.mem_singleton_self _, _, .child (List.mem_cons_self ..)⟩
  | function h =>
    refine ⟨quiet rfl, (eachOwn_map_own _ _).mpr ⟨fun i hi => ?_, quiet rfl, trivial⟩⟩
    obtain ⟨loc, name, -, rfl⟩ := parameters_eq_ok h i hi
    exact quiet rfl

/-- The number of an operator's temporary is not one of its operands. -/
theorem Rule.temp_outside {f : Bool} {c c' : Counters} {n : Node} {pieces : List Piece} {k : Nat}
    (rule : Rule f c (.expr n (.temp (tempName k))) pieces c') (parts : EachPart Lowers pieces) :
    EachPart (fun t => k < t.before.temps ∨ t.after.temps ≤ k) pieces := by
  generalize hp : Phrase.expr n (.temp (tempName k)) = p at rule
  cases rule with
  | binary =>
    obtain ⟨-, hright, -⟩ := parts
    have hle := (counters_le hright).1
    simp only [Phrase.expr.injEq, Operand.temp.injEq, Name.text.injEq, tempName_inj] at hp
    exact ⟨.inr (by simp only at hle ⊢; omega), .inr (by simp only; omega), trivial⟩
  | logical =>
    simp only [Phrase.expr.injEq, Operand.temp.injEq, Name.text.injEq, tempName_inj] at hp
    exact ⟨.inr (by simp only; omega), .inl (by simp only; omega), trivial⟩
  | literal h =>
    cases hp
    obtain ⟨spelling, hconst⟩ := literal_eq_ok h
    cases hconst
  | _ => cases hp

/-- A temporary is written in the code of the phrase that it is numbered for. -/
theorem Lowers.dest_temp {s : Segment} (h : Lowers s) (hnames : s.phrase.HasNoTemps)
    {i : Instruction} {k : Nat} (hi : i ∈ s.code) (hdest : i.dest = some (tempName k)) :
    s.before.temps ≤ k ∧ k < s.after.temps := by
  induction h with
  | @intro f c c' p pieces rule parts ih =>
    rcases mem_codeOf.mp hi with hi | ⟨t, ht, hi⟩
    · rcases eachOwn_iff.mp rule.own_dest i hi _ hdest with ⟨n, hn, loc, hname⟩ | ⟨n, rfl⟩
      · exact absurd rfl (hnames n hn _ hname k)
      · obtain ⟨j, hle, hlt, hj⟩ := rule.temp_numbered (eachPart_iff.mpr parts)
        simp only [Name.text.injEq, tempName_inj] at hj
        exact ⟨by simp only; omega, by simp only; omega⟩
    · have hcounters := eachPart_iff.mp (rule.part_counters (eachPart_iff.mpr parts)) t ht
      have hk := ih t ht (eachPart_iff.mp (rule.throughout hnames) t ht) hi
      exact ⟨by simp only; omega, by simp only; omega⟩

def segmentsOf (ps : List Piece) : List Segment :=
  ps.filterMap fun
    | .own _ => none
    | .part t => some t

theorem mem_segmentsOf {ps : List Piece} {t : Segment} : t ∈ segmentsOf ps ↔ .part t ∈ ps := by
  simp only [segmentsOf, List.mem_filterMap]
  constructor
  · rintro ⟨p, hp, hpart⟩
    cases p with
    | own i => cases hpart
    | part u =>
      cases hpart
      exact hp
  · intro ht
    exact ⟨.part t, ht, rfl⟩

/-- The parts of a phrase are numbered one after the other. -/
theorem Rule.parts_ordered {f : Bool} {c c' : Counters} {p : Phrase} {pieces : List Piece}
    (rule : Rule f c p pieces c') (parts : EachPart Lowers pieces) :
    (segmentsOf pieces).Pairwise fun u v => u.after.temps ≤ v.before.temps := by
  have hle : EachPart (fun t => t.before.temps ≤ t.after.temps) pieces :=
    eachPart_iff.mpr fun t ht => (counters_le (eachPart_iff.mp parts t ht)).1
  cases rule with
  | function h => simp [segmentsOf]
  | _ =>
    simp only [EachPart] at hle
    simp [segmentsOf] <;> omega

theorem segmentsOf_append (ps qs : List Piece) :
    segmentsOf (ps ++ qs) = segmentsOf ps ++ segmentsOf qs := List.filterMap_append

/-- Around a part of a phrase, no instruction writes a temporary that is numbered in the part. -/
theorem Rule.around_part {f : Bool} {c c' : Counters} {p : Phrase} {pre post : List Piece}
    {t : Segment} (rule : Rule f c p (pre ++ .part t :: post) c')
    (parts : ∀ v, .part v ∈ pre ++ .part t :: post → Lowers v) (hnames : p.HasNoTemps) {k : Nat}
    (hk : k ∈ Ico t.before.temps t.after.temps) {i : Instruction}
    (hi : i ∈ codeOf pre ∨ i ∈ codeOf post) :
    i.dest ≠ some (tempName k) := by
  intro hdest
  have hparts := eachPart_iff.mpr parts
  obtain ⟨hbefore, hafter⟩ := mem_Ico.mp hk
  have hown (hi : .own i ∈ pre ++ .part t :: post) : False := by
    rcases eachOwn_iff.mp rule.own_dest i hi _ hdest with ⟨n, hn, loc, hname⟩ | ⟨n, rfl⟩
    · exact hnames n hn _ hname k rfl
    · have hout := eachPart_iff.mp (rule.temp_outside hparts) t (by simp)
      omega
  -- The numbers of the parts before this one end where its own begin, and those behind come after
  -- it.
  have hordered := rule.parts_ordered hparts
  simp only [segmentsOf_append, List.pairwise_append] at hordered
  obtain ⟨-, hrest, hcross⟩ := hordered
  obtain ⟨hbehind, -⟩ := List.pairwise_cons.mp hrest
  have hpart {v : Segment} (hv : .part v ∈ pre ++ .part t :: post) (hi : i ∈ v.code) :=
    (parts v hv).dest_temp (eachPart_iff.mp (rule.throughout hnames) v hv) hi hdest
  rcases hi with hi | hi <;> rcases mem_codeOf.mp hi with hi | ⟨v, hv, hi⟩
  · exact hown (List.mem_append_left _ hi)
  · have hrange := hpart (List.mem_append_left _ hv) hi
    have hle := hcross v (mem_segmentsOf.mpr hv) t (List.mem_cons_self ..)
    omega
  · exact hown (List.mem_append_right _ (List.mem_cons_of_mem _ hi))
  · have hrange := hpart (List.mem_append_right _ (List.mem_cons_of_mem _ hv)) hi
    have hle := hbehind v (mem_segmentsOf.mpr hv)
    omega

/-- A temporary is written where the phrase that it is numbered for writes it. -/
theorem Occurs.writesAt_iff {s t : Segment} {off : Nat} (h : Occurs s off t)
    (hnames : s.phrase.HasNoTemps) {k m : Nat} (hk : k ∈ Ico t.before.temps t.after.temps) :
    WritesAt s.code m (tempName k) ↔ ∃ j, m = off + j ∧ WritesAt t.code j (tempName k) := by
  induction h generalizing m with
  | whole => simp
  | @part f c c' p pre post t u off rule parts hu ih =>
    have hcounters := hu.counters
    have hkt : k ∈ Ico t.before.temps t.after.temps := by
      obtain ⟨hbefore, hafter⟩ := mem_Ico.mp hk
      exact mem_Ico.mpr ⟨by omega, by omega⟩
    have hcode : codeOf (pre ++ .part t :: post) = codeOf pre ++ (t.code ++ codeOf post) := by simp
    have hthrough := eachPart_iff.mp (rule.throughout hnames) t (by simp)
    rw [hcode, writesAt_between (fun i hi => rule.around_part parts hnames hkt (.inl hi))
      (fun i hi => rule.around_part parts hnames hkt (.inr hi))]
    constructor
    · rintro ⟨j, rfl, hj⟩
      obtain ⟨l, rfl, hl⟩ := (ih hthrough hk).mp hj
      exact ⟨l, by omega, hl⟩
    · rintro ⟨l, rfl, hl⟩
      exact ⟨off + l, by omega, (ih hthrough hk).mpr ⟨l, rfl, hl⟩⟩

/-- The temporary of an expression has a number of its own. -/
theorem Lowers.temp_mem {f : Bool} {c c' : Counters} {n : Node} {x : String}
    {code : List Instruction} (h : Lowers ⟨f, c, .expr n (.temp x), code, c'⟩) :
    ∃ k ∈ Ico c.temps c'.temps, x = tempName k := by
  cases h with
  | intro rule parts =>
    obtain ⟨k, hle, hlt, hname⟩ := rule.temp_numbered (eachPart_iff.mpr parts)
    exact ⟨k, mem_Ico.mpr ⟨hle, hlt⟩, Name.text.inj hname⟩

/-- A binary operator writes its temporary with its last instruction. -/
theorem Lowers.binary_writesAt {f : Bool} {c c' : Counters} {loc : Option Location}
    {operator x : String} {left right : Node} {code : List Instruction} {m : Nat}
    (h : Lowers ⟨f, c, .expr (.binary loc operator left right) (.temp x), code, c'⟩)
    (hnames : (Phrase.expr (.binary loc operator left right) (.temp x)).HasNoTemps) :
    WritesAt code m x ↔ m + 1 = code.length := by
  cases h with
  | intro rule parts =>
    have hthrough := rule.throughout hnames
    cases rule with
    | @binary _ _ c₁ c₂ _ _ op _ _ lhs rhs leftCode rightCode hop =>
      obtain ⟨hleft, hright, -⟩ := eachPart_iff.mpr parts
      obtain ⟨hnoLeft, hnoRight, -⟩ := hthrough
      have hle := counters_le hright
      have hquiet : ∀ i ∈ leftCode ++ rightCode, i.dest ≠ some (tempName c₂.temps) := by
        intro i hi hdest
        rcases List.mem_append.mp hi with hi | hi
        · have hrange := hleft.dest_temp hnoLeft hi hdest
          dsimp only at hrange hle
          omega
        · have hrange := hright.dest_temp hnoRight hi hdest
          dsimp only at hrange
          omega
      have hcode : codeOf [.part ⟨f, c, .expr left lhs, leftCode, c₁⟩,
          .part ⟨f, c₁, .expr right rhs, rightCode, c₂⟩,
          .own (.binary op (tempName c₂.temps) lhs rhs (loc.getD .unknown))] =
          (leftCode ++ rightCode) ++
            ([.binary op (tempName c₂.temps) lhs rhs (loc.getD .unknown)] ++ []) := by simp
      rw [hcode, writesAt_between hquiet (by simp)]
      simp only [List.length_append, List.length_cons, List.length_nil]
      constructor
      · rintro ⟨j, rfl, hj⟩
        have hlt := hj.lt_length
        simp only [List.length_cons, List.length_nil] at hlt
        omega
      · intro hm
        exact ⟨0, by omega, _, rfl, rfl⟩

/-- A logical operator writes its temporary with the two instructions that store its value. -/
theorem Lowers.logical_writesAt {f : Bool} {c c' : Counters} {loc : Option Location}
    {operator x : String} {left right : Node} {code : List Instruction} {m : Nat}
    (h : Lowers ⟨f, c, .expr (.logical loc operator left right) (.temp x), code, c'⟩)
    (hnames : (Phrase.expr (.logical loc operator left right) (.temp x)).HasNoTemps) :
    WritesAt code m x ↔ m + 5 = code.length ∨ m + 2 = code.length := by
  cases h with
  | intro rule parts =>
    have hthrough := rule.throughout hnames
    cases rule with
    | @logical _ _ c₁ c₂ _ _ skip _ _ lhs rhs leftCode rightCode hskip =>
      obtain ⟨hleft, hright, -⟩ := eachPart_iff.mpr parts
      obtain ⟨hnoLeft, hnoRight, -⟩ := hthrough
      have hquiet : ∀ i ∈ leftCode ++ .cmp lhs (loc.getD .unknown) ::
          skip (labelName c₁.labels) (loc.getD .unknown) :: rightCode,
          i.dest ≠ some (tempName c₁.temps) := by
        intro i hi hdest
        simp only [List.mem_append, List.mem_cons] at hi
        rcases hi with hi | rfl | rfl | hi
        · have hrange := hleft.dest_temp hnoLeft hi hdest
          dsimp only at hrange
          omega
        · cases hdest
        · obtain ⟨-, rfl⟩ | ⟨-, rfl⟩ := shortCut?_eq_some.mp hskip <;> cases hdest
        · have hrange := hright.dest_temp hnoRight hi hdest
          dsimp only at hrange
          omega
      have hcode : codeOf [.part ⟨f, c, .expr left lhs, leftCode, c₁⟩,
          .own (.cmp lhs (loc.getD .unknown)),
          .own (skip (labelName c₁.labels) (loc.getD .unknown)),
          .part ⟨f, ⟨c₁.temps + 1, c₁.labels + 2⟩, .expr right rhs, rightCode, c'⟩,
          .own (.mov (tempName c₁.temps) rhs (loc.getD .unknown)),
          .own (.jump (labelName (c₁.labels + 1)) (loc.getD .unknown)),
          .own (.mark (labelName c₁.labels)),
          .own (.mov (tempName c₁.temps) lhs (loc.getD .unknown)),
          .own (.mark (labelName (c₁.labels + 1)))] =
          (leftCode ++ .cmp lhs (loc.getD .unknown) ::
            skip (labelName c₁.labels) (loc.getD .unknown) :: rightCode) ++
            (storing (tempName c₁.temps) lhs rhs (labelName c₁.labels) (labelName (c₁.labels + 1))
              (loc.getD .unknown) ++ []) := by simp [storing]
      rw [hcode, writesAt_between hquiet (by simp)]
      simp only [writesAt_storing]
      simp only [storing, List.length_append, List.length_cons, List.length_nil]
      constructor
      · rintro ⟨j, rfl, hj⟩
        omega
      · rintro (hm | hm)
        · exact ⟨0, by omega, .inl rfl⟩
        · exact ⟨3, by omega, .inr rfl⟩

/-- How many values of a logical expression are stored on the way to a position, where the right
value is stored at `n`: none up to there and from the label behind the jump over the other store,
one elsewhere. -/
def progress (n p : Nat) : Nat := if p ≤ n ∨ p = n + 2 ∨ p = n + 3 then 0 else 1

/-- Each step in a logical expression makes progress exactly at the two stores. -/
theorem LogicalAt.progress_eq {s : Segment} {off m n p q : Nat} {x : String} {lhs rhs : Operand}
    {short done : Option String} (h : LogicalAt s off m n x lhs rhs short done)
    (hw : WellStructured s.code) (hp : p ∈ Ico off (n + 5)) (hflow : Flows s.code p q) :
    progress n q = progress n p + if p = n ∨ p = n + 3 then 1 else 0 := by
  obtain ⟨u, l, hu, -, hm⟩ := h.left
  obtain ⟨v, r, hv, -, hn⟩ := h.right
  obtain ⟨hstart, hstop⟩ := mem_Ico.mp hp
  -- Before the right value is stored, and on the way to the other store, nothing is stored.
  have hearly (hp : p < n) (hq : q ≤ n ∨ q = n + 2) :
      progress n q = progress n p + if p = n ∨ p = n + 3 then 1 else 0 := by
    unfold progress
    split_ifs <;> omega
  have hoperand {o : Segment} {start : Nat} (ho : Occurs s start o)
      (hend : start + o.code.length ≤ n)
      (hp : p ∈ Ico start (start + o.code.length)) : q ≤ n := by
    by_cases hin : q ∈ Ico start (start + o.code.length)
    · have hlt := (mem_Ico.mp hin).2
      omega
    · have hexit := (ho.singleEntryExit hw).exit p q hflow hp hin
      omega
  have hcases : p ∈ Ico off (off + u.code.length) ∨ p = m ∨ p = m + 1 ∨
      p ∈ Ico (m + 2) (m + 2 + v.code.length) ∨ p = n ∨ p = n + 1 ∨ p = n + 2 ∨ p = n + 3 ∨
      p = n + 4 := by
    simp only [mem_Ico]
    omega
  rcases hcases with hp | rfl | rfl | hp | rfl | rfl | rfl | rfl | rfl
  · have hlt := (mem_Ico.mp hp).2
    exact hearly (by omega) (.inl (hoperand hu (by omega) hp))
  · obtain ⟨i, hi, hcmp, -⟩ := h.test
    rw [hflow.eq_next ⟨i, hi, hcmp⟩ rfl (by simp)] at hearly ⊢
    exact hearly (by omega) (.inl (by omega))
  · rcases hflow.of_branch h.skip with rfl | hto
    · exact hearly (by omega) (.inl (by omega))
    · exact hearly (by omega) (.inr (hw.once _ _ _ hto h.meetShort))
  · have hlt := (mem_Ico.mp hp).2
    exact hearly (by omega) (.inl (hoperand hv (by omega) hp))
  · obtain ⟨i, hi, hmov, -⟩ := h.storeRight
    rw [hflow.eq_next ⟨i, hi, hmov⟩ rfl (by simp)]
    simp [progress]
  · rw [hw.once _ _ _ (hflow.of_jump h.leave) h.meetDone]
    simp [progress]
  · rw [hflow.eq_next (DefinesAt.opAt h.meetShort) rfl (by simp)]
    simp [progress]
  · obtain ⟨i, hi, hmov, -⟩ := h.storeLeft
    rw [hflow.eq_next ⟨i, hi, hmov⟩ rfl (by simp)]
    simp [progress]
  · rw [hflow.eq_next (DefinesAt.opAt h.meetDone) rfl (by simp)]
    simp [progress]

/-- A walk through a logical expression stores one value. -/
theorem LogicalAt.stores_once {s : Segment} {off m n : Nat} {x : String} {lhs rhs : Operand}
    {short done : Option String} (h : LogicalAt s off m n x lhs rhs short done)
    (hw : WellStructured s.code) {ps : List Nat} (hwalk : Walk s.code off ps (n + 5))
    (hin : ∀ p ∈ ps, p ∈ Ico off (n + 5)) : ps.count n + ps.count (n + 3) = 1 := by
  have hgain := hwalk.telescope fun p hp q hflow => h.progress_eq hw (hin p hp) hflow
  obtain ⟨u, l, -, -, hm⟩ := h.left
  obtain ⟨v, r, -, -, hn⟩ := h.right
  have hstart : progress n off = 0 := if_pos (.inl (by omega))
  have hstop : progress n (n + 5) = 1 := if_neg (by omega)
  rw [hstart, hstop, Nat.zero_add] at hgain
  rw [hgain]
  -- The two stores stand at different positions, so that each visit counts for one of them.
  clear hgain hwalk hin
  induction ps with
  | nil => rfl
  | cons p ps ih =>
    simp only [List.count_cons, List.map_cons, List.sum_cons, ← ih, beq_iff_eq]
    split_ifs <;> omega

/-- The value of an operator is its temporary. -/
theorem Lowers.operation_temp {t : Segment} (h : Lowers t) {n : Node} {value : Operand}
    (ht : t.phrase = .expr n value) (hop : n.isOperation) :
    ∃ name : String, value = .temp name := by
  obtain ⟨f, c, p, code, c'⟩ := t
  obtain rfl : p = _ := ht
  cases n with
  | binary =>
    obtain ⟨_, _, _, _, x, hx, -⟩ := h.binaryAt
    exact ⟨x, hx⟩
  | logical =>
    obtain ⟨_, _, _, _, _, _, x, hx, -⟩ := h.logicalAt
    exact ⟨x, hx⟩
  | _ => cases hop

/-- Every operator of a lowered phrase is lowered to an expression in it, also where it stands as a
statement. -/
theorem Lowers.occurs_operation {s : Segment} (h : Lowers s) {m n : Node} (hn : n ∈ s.phrase.nodes)
    (hm : Node.Subtree m n) (hop : m.isOperation) :
    ∃ off t, ∃ name : String, Occurs s off t ∧ t.phrase = .expr m (.temp name) := by
  have hexpr {off : Nat} {u : Segment} {value : Operand} (hu : Occurs s off u)
      (hphrase : u.phrase = .expr m value) :
      ∃ off t, ∃ name : String, Occurs s off t ∧ t.phrase = .expr m (.temp name) := by
    obtain ⟨name, rfl⟩ := hu.lowers.operation_temp hphrase hop
    exact ⟨off, u, name, hu, hphrase⟩
  rcases h.occurs_of_subtree hn hm with ⟨loc, name, rfl⟩ | ⟨off, t, ht, hstmt | ⟨value, hvalue⟩⟩
  · cases hop
  · have hlowers := ht.lowers
    cases hlowers with
    | intro rule parts =>
      obtain rfl : _ = _ := hstmt
      have hrule := rule
      cases rule with
      | bare => exact hexpr (ht.part_of [] hrule parts) rfl
      | _ => cases hop
  · exact hexpr ht hvalue

theorem Occurs.hasNoTemps {s t : Segment} {off : Nat} (h : Occurs s off t)
    (hnames : s.phrase.HasNoTemps) :
    t.phrase.HasNoTemps := by
  intro n hn m hm
  obtain ⟨n', hn', hsub⟩ := h.subtree hn
  exact hnames n' hn' m (hm.trans hsub)

theorem Occurs.binary_writesAt {s t : Segment} {off m : Nat} {loc : Option Location}
    {operator x : String} {left right : Node} (h : Occurs s off t) (hnames : s.phrase.HasNoTemps)
    (ht : t.phrase = .expr (.binary loc operator left right) (.temp x)) :
    WritesAt s.code m x ↔ m + 1 = off + t.code.length := by
  obtain ⟨f, c, p, code, c'⟩ := t
  obtain rfl : p = _ := ht
  obtain ⟨k, hk, rfl⟩ := h.lowers.temp_mem
  obtain ⟨-, n, -, -, -, -, hlength, -⟩ := h.lowers.binaryAt
  rw [h.writesAt_iff hnames hk]
  simp only [h.lowers.binary_writesAt (h.hasNoTemps hnames), hlength]
  constructor
  · rintro ⟨j, rfl, hj⟩
    omega
  · intro hm
    exact ⟨n, by omega, rfl⟩

/-- The two writes of the temporary of a logical operator, and a walk through its code. -/
theorem Occurs.logical_stores {s t : Segment} {off : Nat} {loc : Option Location}
    {operator x : String} {left right : Node} (h : Occurs s off t) (hw : WellStructured s.code)
    (hnames : s.phrase.HasNoTemps)
    (ht : t.phrase = .expr (.logical loc operator left right) (.temp x)) :
    ∃ j k, j < k ∧ (∀ m, WritesAt s.code m x ↔ m = j ∨ m = k) ∧
      ∀ ps, Walk s.code off ps (off + t.code.length) →
        (∀ p ∈ ps, p ∈ Ico off (off + t.code.length)) → ps.count j + ps.count k = 1 := by
  obtain ⟨f, c, p, code, c'⟩ := t
  obtain rfl : p = _ := ht
  obtain ⟨i, hi, rfl⟩ := h.lowers.temp_mem
  obtain ⟨m, n, lhs, rhs, short, done, y, -, hlength, hat⟩ := h.lowers.logicalAt
  refine ⟨off + n, off + n + 3, by omega, fun m => ?_, fun ps hwalk hin => ?_⟩
  · rw [h.writesAt_iff hnames hi]
    simp only [h.lowers.logical_writesAt (h.hasNoTemps hnames), hlength]
    constructor
    · rintro ⟨j, rfl, hj⟩
      omega
    · rintro (rfl | rfl)
      · exact ⟨n, rfl, .inl rfl⟩
      · exact ⟨n + 3, by omega, .inr rfl⟩
  · dsimp only at hwalk hin
    rw [hlength, ← Nat.add_assoc] at hwalk hin
    exact (hat.shift h).stores_once hw hwalk hin

end Sil.Lowering

namespace Sil
open Lowering Streams Set

/-- Temporaries are definitely assigned. Let a tree have no name of the form that temporaries have.
Every walk through its code from the first instruction has written a temporary before it reads it.
Every operator of the tree is lowered to an expression with a temporary. That of a binary operator
is written by one instruction, that of a logical operator by two, and each walk through the code of
the expression from its start to its end executes one of them. -/
theorem temporaries_definitely_assigned {limits : Limits} (tree : Node) {code : List Instruction}
    {c : Counters} (h : tree.lowerCounting limits = .ok (code, c))
    (hnames : ∀ loc name, (Node.identifier loc name).Subtree tree → isTemporary name = false) :
    (∀ ps p i, ∀ x : Name, Walk code 0 ps p → code[p]? = some i → .temp x ∈ i.operands →
      ∃ name : String, x = name ∧ ∃ k ∈ ps, WritesAt code k name) ∧
    (∀ n, Node.Subtree n tree → n.isOperation → ∃ off t, ∃ name : String,
      Occurs (.ofTree tree code c) off t ∧ t.phrase = .expr n (.temp name)) ∧
    (∀ off t loc operator left right, ∀ name : String, Occurs (.ofTree tree code c) off t →
      t.phrase = .expr (.binary loc operator left right) (.temp name) →
      ∃! k, WritesAt code k name) ∧
    ∀ off t loc operator left right, ∀ name : String, Occurs (.ofTree tree code c) off t →
      t.phrase = .expr (.logical loc operator left right) (.temp name) →
      ∃ j k, j < k ∧ (∀ m, WritesAt code m name ↔ m = j ∨ m = k) ∧
        ∀ ps, Walk code off ps (off + t.code.length) →
          (∀ p ∈ ps, p ∈ Ico off (off + t.code.length)) → ps.count j + ps.count k = 1 := by
  have hlowers := lowers_ofTree h
  have hw : WellStructured code := wellStructured_of_lower (lower_of_lowerCounting h)
  have hno : (Segment.ofTree tree code c).phrase.HasNoTemps := by
    intro n hn m hm k hk
    obtain rfl := List.mem_singleton.mp hn
    cases m with
    | identifier loc name => exact ne_tempName (hnames loc name hm) k (Option.some.inj hk)
    | _ => cases hk
  refine ⟨?_, ?_, ?_, ?_⟩
  · intro ps p i x hwalk hi hx
    obtain ⟨name, rfl, hassigned⟩ := reads_assigned hlowers hw hi hx
    exact ⟨name, rfl, hassigned ps hwalk⟩
  · intro n hn hop
    exact hlowers.occurs_operation (List.mem_singleton_self tree) hn hop
  · intro off t loc operator left right name ht hphrase
    have hwrites (m : Nat) : WritesAt code m name ↔ m + 1 = off + t.code.length :=
      ht.binary_writesAt hno hphrase
    obtain ⟨hne, -⟩ := carries_of_expr ht hw hphrase
    have hpos := List.length_pos_iff.mpr hne
    refine ⟨off + t.code.length - 1, (hwrites _).mpr (by omega), fun m hm => ?_⟩
    have hlast := (hwrites m).mp hm
    omega
  · intro off t loc operator left right name ht hphrase
    exact ht.logical_stores hw hno hphrase

theorem triangle_temporaries_assigned :
    ∃ code c, triangle.lowerCounting {} = .ok (code, c) ∧
      (∀ ps p i, ∀ x : Name, Walk code 0 ps p → code[p]? = some i → .temp x ∈ i.operands →
        ∃ name : String, x = name ∧ ∃ k ∈ ps, WritesAt code k name) ∧
      ∃ off t, ∃ name : String, Occurs (.ofTree triangle code c) off t ∧
        t.phrase = .expr (.logical none "||" (.identifier none "n") (.identifier none "s"))
          (.temp name) ∧
        ∃ j k, j < k ∧ (∀ m, WritesAt code m name ↔ m = j ∨ m = k) ∧
          ∀ ps, Walk code off ps (off + t.code.length) →
            (∀ p ∈ ps, p ∈ Ico off (off + t.code.length)) → ps.count j + ps.count k = 1 := by
  have hlower : ∃ code c, triangle.lowerCounting {} = .ok (code, c) := ⟨_, _, rfl⟩
  have hspelled : ∀ name ∈ triangle.preorder.filterMap Node.identifier?,
      isTemporary name = false := by
    decide
  obtain ⟨code, c, hcode⟩ := hlower
  obtain ⟨hreads, hoperations, -, hlogical⟩ := temporaries_definitely_assigned triangle hcode
    fun loc name h => hspelled name (Node.names_iff.mp ⟨loc, h⟩)
  have hin : Node.Subtree (.logical none "||" (.identifier none "n") (.identifier none "s"))
      triangle := by
    refine .under (m := .ret none (some _)) ?_ (.child (List.mem_singleton_self _))
    simp [triangle, Node.children]
  obtain ⟨off, t, name, ht, hphrase⟩ := hoperations _ hin rfl
  exact ⟨code, c, hcode, hreads, off, t, name, ht, hphrase, hlogical off t _ _ _ _ name ht hphrase⟩

end Sil
