import Mathlib
import Sil.Proofs.LoweredFlow
import Sil.Proofs.LoweringMeaning
import Sil.Proofs.Temporaries

/-!
When an operator reads its operands. The code of an expression always runs to its end and changes
only the names that its instructions write, which are the variables that the expression assigns and
its temporaries. So an operation finds the value of its right operand as it was left; of its left
operand it finds the value that the holding name has after the right operand, and this is the value
of the left operand unless the right one has written the name.
-/
namespace Sil
open Counters Lowering

namespace Lowering

def Writes (code : List Instruction) (x : String) : Prop := ∃ i ∈ code, i.dest = some x

@[simp] theorem writes_nil {x : String} : ¬ Writes [] x := by simp [Writes]

@[simp] theorem writes_cons {i : Instruction} {code : List Instruction} {x : String} :
    Writes (i :: code) x ↔ i.dest = some x ∨ Writes code x := by simp [Writes]

@[simp] theorem writes_append {xs ys : List Instruction} {x : String} :
    Writes (xs ++ ys) x ↔ Writes xs x ∨ Writes ys x := by
  simp [Writes, or_and_right, exists_or]

end Lowering

namespace Interpretation

variable {V : Type*} (I : Interpretation V) (program : List Instruction)

/-- From one position to another, the program runs through some code and changes only the names that
the code writes. -/
def RunsThrough (p q : Nat) (code : List Instruction) : Prop :=
  ∀ m : Env V, ∃ m', I.Reaches program ⟨p, m, none⟩ ⟨q, m', none⟩ ∧ ∀ x, ¬ Writes code x →
    m' x = m x

variable {I program} {p q r : Nat} {xs ys : List Instruction} {a b : Operand} {x : String}
  {place : Location}

theorem exists_operand (ha : a.isPlain) (m : Env V) : ∃ v, I.operand m a = some v := by
  cases a with
  | const value raw => exact ⟨_, rfl⟩
  | var name =>
    cases name with
    | text name => exact ⟨_, rfl⟩
    | _ => cases ha
  | temp name =>
    cases name with
    | text name => exact ⟨_, rfl⟩
    | _ => cases ha

/-- An operand keeps its value where its name does. -/
theorem operand_congr {m m' : Env V} (h : ∀ x, a.name? = some (.text x) → m' x = m x) :
    I.operand m' a = I.operand m a := by
  cases a with
  | const value raw => rfl
  | var name =>
    cases name with
    | text name => exact congrArg some (h name rfl)
    | _ => rfl
  | temp name =>
    cases name with
    | text name => exact congrArg some (h name rfl)
    | _ => rfl

namespace RunsThrough

theorem nil : I.RunsThrough program p p [] := fun m => ⟨m, .refl, fun _ _ => rfl⟩

theorem append (h : I.RunsThrough program p q xs) (h' : I.RunsThrough program q r ys) :
    I.RunsThrough program p r (xs ++ ys) := by
  intro m
  obtain ⟨m₁, hreach, hkeep⟩ := h m
  obtain ⟨m₂, hreach', hkeep'⟩ := h' m₁
  refine ⟨m₂, hreach.trans hreach', fun x hx => ?_⟩
  rw [writes_append, not_or] at hx
  rw [hkeep' x hx.2, hkeep x hx.1]

theorem mov (ha : a.isPlain) (h : program[p]? = some (.mov x a place)) :
    I.RunsThrough program p (p + 1) [.mov x a place] := by
  intro m
  obtain ⟨v, hv⟩ := exists_operand (I := I) ha m
  refine ⟨_, .one (step_mov h hv), fun y hy => ?_⟩
  have hne : y ≠ x := by simpa [Instruction.mov, eq_comm] using hy
  exact Function.update_of_ne hne _ _

theorem binary {op : BinaryOp} (ha : a.isPlain) (hb : b.isPlain)
    (h : program[p]? = some (.binary op x a b place)) :
    I.RunsThrough program p (p + 1) [.binary op x a b place] := by
  intro m
  obtain ⟨v, hv⟩ := exists_operand (I := I) ha m
  obtain ⟨w, hw⟩ := exists_operand (I := I) hb m
  refine ⟨_, .one (step_binary h hv hw), fun y hy => ?_⟩
  have hne : y ≠ x := by simpa [Instruction.binary, eq_comm] using hy
  exact Function.update_of_ne hne _ _

end RunsThrough

/-- The jump of a logical operator goes on or skips the right operand. -/
theorem step_skip {operator : String} {skip : String → Location → Instruction} {k : Nat}
    (hskip : shortCut? operator = some skip) (h : program[p]? = some (skip x place))
    (hx : landing program (some x) = some k) (e : Env V) (v : V) :
    I.step program ⟨p, e, some v⟩ = some (.running ⟨p + 1, e, none⟩) ∨
      I.step program ⟨p, e, some v⟩ = some (.running ⟨k, e, none⟩) := by
  obtain ⟨-, rfl⟩ | ⟨-, rfl⟩ := shortCut?_eq_some.mp hskip
  · rw [step_jumpIfFalse h hx]
    cases I.truthy v
    · exact .inr rfl
    · exact .inl rfl
  · rw [step_jumpIfTrue h hx]
    cases I.truthy v
    · exact .inl rfl
    · exact .inr rfl

/-- Both ways through a logical operator end after its last label. -/
theorem RunsThrough.logical {operator short done : String} {skip : String → Location → Instruction}
    (hskip : shortCut? operator = some skip) (ha : a.isPlain) (hb : b.isPlain)
    (hl : I.RunsThrough program p q xs) (hr : I.RunsThrough program (q + 2) r ys)
    (hcmp : program[q]? = some (.cmp a place)) (hjump : program[q + 1]? = some (skip short place))
    (hmov : program[r]? = some (.mov x b place))
    (hover : program[r + 1]? = some (.jump done place))
    (hshort : program[r + 2]? = some (.mark short))
    (hmov' : program[r + 3]? = some (.mov x a place))
    (hdone : program[r + 4]? = some (.mark done))
    (hlands : landing program (some short) = some (r + 2))
    (hlands' : landing program (some done) = some (r + 4)) :
    I.RunsThrough program p (r + 5) (xs ++ .cmp a place :: skip short place :: (ys ++
      [.mov x b place, .jump done place, .mark short, .mov x a place, .mark done])) := by
  intro m
  obtain ⟨m₁, hreach, hkeep⟩ := hl m
  obtain ⟨v, hv⟩ := exists_operand (I := I) ha m₁
  have htest := hreach.step (step_cmp hcmp hv)
  have hnames (y : String) (hy : ¬ Writes (xs ++ .cmp a place :: skip short place :: (ys ++
      [.mov x b place, .jump done place, .mark short, .mov x a place, .mark done])) y) :
      ¬ Writes xs y ∧ ¬ Writes ys y ∧ y ≠ x := by
    simp only [writes_append, writes_cons, not_or] at hy
    obtain ⟨hxs, -, -, hys, hne, -⟩ := hy
    exact ⟨hxs, hys, fun heq => hne (by rw [heq]; rfl)⟩
  -- Either the right operand is evaluated and copied, or the left one is; both copies go to one
  -- name.
  rcases step_skip hskip hjump hlands m₁ v with hstep | hstep
  · obtain ⟨m₂, hreach', hkeep'⟩ := hr m₁
    obtain ⟨w, hw⟩ := exists_operand (I := I) hb m₂
    refine ⟨Function.update m₂ x w, ?_, fun y hy => ?_⟩
    · exact ((((htest.step hstep).trans hreach').step (step_mov hmov hw)).step
        (step_jump hover hlands')).step (step_mark hdone)
    · obtain ⟨hxs, hys, hne⟩ := hnames y hy
      rw [Function.update_of_ne hne, hkeep' y hys, hkeep y hxs]
  · refine ⟨Function.update m₁ x v, ?_, fun y hy => ?_⟩
    · exact (((htest.step hstep).step (step_mark hshort)).step (step_mov hmov' hv)).step
        (step_mark hdone)
    · obtain ⟨hxs, -, hne⟩ := hnames y hy
      rw [Function.update_of_ne hne, hkeep y hxs]

/-- The code of an expression runs to its end wherever it stands in a program with unique labels. -/
theorem runsThrough_of_lowers
    (once : ∀ j m label, Streams.DefinesAt program j label → Streams.DefinesAt program m label →
      j = m)
    {s : Segment} (h : Lowers s) {n : Node} {value : Operand} (hs : s.phrase = .expr n value)
    (hp : Placed program p s.code) (hq : q = p + s.code.length) :
    I.RunsThrough program p q s.code := by
  have lands {k : Nat} {x : String} (h : program[k]? = some (.mark x)) :
      landing program (some x) = some k := landing_eq (fun j m => once j m _) ⟨_, h, rfl, rfl⟩
  induction h generalizing n value p q with
  | @intro f c c' phrase pieces rule parts ih =>
    -- The values of the parts matter nowhere here, only that they are operands that can be read.
    replace parts := eachPart_iff.mpr parts
    replace ih := eachPart_iff.mpr ih
    obtain rfl : phrase = .expr n value := hs
    cases rule with
    | literal =>
      cases hq
      exact .nil
    | identifier =>
      cases hq
      exact .nil
    | @binary _ _ _ _ loc operator op left right lhs rhs leftCode rightCode =>
      obtain ⟨hl, hr, -⟩ := ih
      obtain ⟨ll, lr, -⟩ := parts
      simp only [codeOf_part, codeOf_own, Placed.append_iff, Placed.cons_iff] at hp
      obtain ⟨pl, pr, hown, -⟩ := hp
      obtain rfl : q = p + leftCode.length + rightCode.length + 1 := by
        simp at hq
        omega
      exact (hl rfl pl rfl).append ((hr rfl pr rfl).append
        (.binary (value_plain ll) (value_plain lr) hown))
    | @logical _ _ _ _ loc operator skip left right lhs rhs leftCode rightCode h =>
      obtain ⟨hl, hr, -⟩ := ih
      obtain ⟨ll, lr, -⟩ := parts
      simp only [codeOf_part, codeOf_own, Placed.append_iff, Placed.cons_iff] at hp
      obtain ⟨pl, hcmp, hjump, pr, hmov, hover, hshort, hmov', hdone, -⟩ := hp
      obtain rfl : q = p + leftCode.length + 2 + rightCode.length + 5 := by
        simp at hq
        omega
      exact .logical h (value_plain ll) (value_plain lr) (hl rfl pl rfl)
        (hr rfl pr rfl) hcmp hjump hmov
        hover hshort hmov' hdone (lands hshort) (lands hdone)
    | @assignment _ _ _ loc targetLoc target right value code =>
      obtain ⟨hr, -⟩ := ih
      obtain ⟨lr, -⟩ := parts
      simp only [codeOf_part, codeOf_own, Placed.append_iff, Placed.cons_iff] at hp
      obtain ⟨pr, hown, -⟩ := hp
      obtain rfl : q = p + code.length + 1 := by
        simp at hq
        omega
      exact (hr rfl pr rfl).append (.mov (value_plain lr) hown)

end Interpretation

namespace Lowering

theorem Occurs.placed {s t : Segment} {off : Nat} (h : Occurs s off t) :
    Placed s.code off t.code := by
  intro k i hi
  obtain ⟨hk, -⟩ := List.getElem?_eq_some_iff.mp hi
  rw [h.getElem? hk, hi]

/-- The parts of a phrase inside of a phrase occur behind the pieces in front of them. -/
theorem Occurs.part_of {s : Segment} {off : Nat} {f : Bool} {c c' : Counters} {p : Phrase}
    (pre : List Piece) {post : List Piece} {t : Segment}
    (h : Occurs s off ⟨f, c, p, codeOf (pre ++ .part t :: post), c'⟩)
    (rule : Rule f c p (pre ++ .part t :: post) c')
    (parts : ∀ v, .part v ∈ pre ++ .part t :: post → Lowers v) :
    Occurs s (off + (codeOf pre).length) t :=
  h.trans (.part rule parts (.whole (parts t (by simp))))

/-- An expression is lowered from the expressions below it. -/
theorem Rule.part_expr {f : Bool} {c c' : Counters} {n : Node} {value : Operand}
    {pieces : List Piece} (rule : Rule f c (.expr n value) pieces c') :
    EachPart (fun t => ∃ m v, t.phrase = .expr m v ∧ m ∈ n.children) pieces := by
  cases rule <;> simp [EachPart, Node.children]

/-- An instruction of an expression's own writes the variable of an assignment or a temporary. -/
theorem Rule.own_writes {f : Bool} {c c' : Counters} {n : Node} {value : Operand}
    {pieces : List Piece} (rule : Rule f c (.expr n value) pieces c')
    (parts : EachPart Lowers pieces) :
    EachOwn (fun i => ∀ x, i.dest = some x →
      n.Assigns x ∨ ∃ k, c.temps ≤ k ∧ k < c'.temps ∧ x = tempName k) pieces := by
  cases rule with
  | literal => trivial
  | identifier => trivial
  | @binary _ _ c₁ c₂ =>
    obtain ⟨hl, hr, -⟩ := parts
    have hle := (counters_le hl).1.trans (counters_le hr).1
    refine ⟨fun x hx => .inr ⟨c₂.temps, hle, Nat.lt_succ_self _, ?_⟩, trivial⟩
    simpa [Instruction.binary, eq_comm] using hx
  | @logical _ _ c₁ c₂ _ _ _ _ _ _ _ _ _ h =>
    obtain ⟨hl, hr, -⟩ := parts
    have hmov (x : String) (hx : some (tempName c₁.temps) = some x) :
        ∃ k, c.temps ≤ k ∧ k < c'.temps ∧ x = tempName k :=
      ⟨c₁.temps, (counters_le hl).1, (counters_le hr).1, by simpa [eq_comm] using hx⟩
    refine ⟨?_, ?_, fun x hx => .inr (hmov x hx), ?_, ?_, fun x hx => .inr (hmov x hx), ?_, trivial⟩
    · simp [Instruction.cmp]
    · obtain ⟨-, rfl⟩ | ⟨-, rfl⟩ := shortCut?_eq_some.mp h
      · simp [Instruction.jumpIfFalse]
      · simp [Instruction.jumpIfTrue]
    · simp [Instruction.jump]
    · simp [Instruction.mark]
    · simp [Instruction.mark]
  | assignment =>
    refine ⟨fun x hx => .inl ?_, trivial⟩
    cases hx
    exact ⟨_, _, _, _, .root _⟩

/-- The code of an assignment writes its variable. -/
theorem writes_of_assignment {t : Segment} {loc targetLoc : Option Location} {operator x : String}
    {right : Node} (h : Lowers t)
    (hof : t.phrase.IsOf (.assignment loc operator (.identifier targetLoc x) right)) :
    Writes t.code x := by
  have hexpr {f : Bool} {c c' : Counters} {value : Operand} {code : List Instruction}
      (h : Lowers ⟨f, c, .expr (.assignment loc operator (.identifier targetLoc x) right) value,
        code, c'⟩) :
      Writes code x := by
    obtain ⟨rule, -⟩ := h
    cases rule with
    | assignment => simp [Instruction.mov]
  obtain ⟨f, c, p, code, c'⟩ := t
  rcases hof with hp | ⟨value, hp⟩
  · obtain rfl : p = .stmt _ := hp
    obtain ⟨rule, parts⟩ := h
    cases rule with
    | bare => simpa using hexpr (parts _ (List.mem_singleton_self _))
  · obtain rfl : p = .expr _ value := hp
    exact hexpr h

/-- The code of an expression writes the variables that the expression assigns, and its
temporaries. -/
theorem writes_iff {s : Segment} (h : Lowers s) {n : Node} {value : Operand}
    (hs : s.phrase = .expr n value) {x : String} :
    Writes s.code x ↔
      n.Assigns x ∨ ∃ k, s.before.temps ≤ k ∧ k < s.after.temps ∧ x = tempName k := by
  constructor
  · intro hx
    induction h generalizing n value with
    | @intro f c c' p pieces rule parts ih =>
      obtain rfl : p = .expr n value := hs
      have hparts := eachPart_iff.mpr parts
      obtain ⟨i, hi, hdest⟩ := hx
      obtain hi | ⟨t, ht, hi⟩ := mem_codeOf.mp hi
      · exact eachOwn_iff.mp (rule.own_writes hparts) i hi x hdest
      · obtain ⟨m, v, hphrase, hchild⟩ := eachPart_iff.mp rule.part_expr t ht
        have hcounters := eachPart_iff.mp (rule.part_counters hparts) t ht
        rcases ih t ht hphrase ⟨i, hi, hdest⟩ with ⟨_, _, _, _, hm⟩ | ⟨k, hle, hlt, rfl⟩
        · exact .inl ⟨_, _, _, _, hm.trans (.child hchild)⟩
        · exact .inr ⟨k, hcounters.1.trans hle, hlt.trans_le hcounters.2.1, rfl⟩
  · rintro (⟨_, _, _, _, hm⟩ | hk)
    · have hn : n ∈ s.phrase.nodes := by simp [hs, Phrase.nodes]
      rcases h.occurs_of_subtree hn hm with ⟨_, _, hname⟩ | ⟨off, t, ht, hof⟩
      · cases hname
      · obtain ⟨pre, post, hcode, -⟩ := ht.code
        simp [hcode, writes_of_assignment ht.lowers hof]
    · obtain ⟨k, hstores⟩ := allocates_iff_storesAt.mp ((allocates_iff h).mpr hk)
      obtain ⟨i, hi, hdest⟩ := hstores.writes
      exact ⟨i, List.mem_of_getElem? hi, hdest⟩

theorem Segment.eta (s : Segment) {p : Phrase} (h : s.phrase = p) :
    (⟨s.inFunction, s.before, p, s.code, s.after⟩ : Segment) = s := by
  rw [← h]

/-- The code of a binary operator in the code of a phrase: from a position on the code of its left
operand, then that of its right operand, then the operation. -/
structure OperatorCode (s : Segment) (off : Nat) (left right : Node) where
  first : Segment
  second : Segment
  lhs : Operand
  rhs : Operand
  op : BinaryOp
  result : String
  place : Location
  first_occurs : Occurs s off first
  first_phrase : first.phrase = .expr left lhs
  second_occurs : Occurs s (off + first.code.length) second
  second_phrase : second.phrase = .expr right rhs
  /-- The temporaries of the left operand come first. -/
  first_temps : first.after.temps ≤ second.before.temps
  operation : s.code[off + first.code.length + second.code.length]? =
    some (.binary op result lhs rhs place)

namespace OperatorCode

variable {s : Segment} {off : Nat} {left right : Node} (o : OperatorCode s off left right)

def middle : Nat := off + o.first.code.length

def stop : Nat := o.middle + o.second.code.length

/-- The left operand is held by its variable or by a temporary from before the right one. -/
theorem lhs_name {x : String} (hx : o.lhs.name? = some (.text x)) :
    left.variable? = some x ∨ ∃ k < o.second.before.temps, x = tempName k := by
  have hfirst := o.first_occurs.lowers
  rw [← o.first.eta o.first_phrase] at hfirst
  rcases value_cases hfirst with ⟨_, _, _, _, -, hlhs⟩ | ⟨y, hy, hlhs⟩ | ⟨k, hk, hlhs⟩
  · rw [hlhs] at hx
    cases hx
  · rw [hlhs] at hx
    cases hx
    exact .inl hy
  · rw [hlhs] at hx
    cases hx
    exact .inr ⟨k, hk.trans_le o.first_temps, rfl⟩

theorem lhs_plain : o.lhs.isPlain := by
  have hfirst := o.first_occurs.lowers
  rw [← o.first.eta o.first_phrase] at hfirst
  exact value_plain hfirst

theorem rhs_plain : o.rhs.isPlain := by
  have hsecond := o.second_occurs.lowers
  rw [← o.second.eta o.second_phrase] at hsecond
  exact value_plain hsecond

end OperatorCode

theorem exists_operatorCode {s t : Segment} {off : Nat} {loc : Option Location} {operator : String}
    {left right : Node} {value : Operand} (h : Occurs s off t)
    (ht : t.phrase = .expr (.binary loc operator left right) value) :
    ∃ o : OperatorCode s off left right,
      BinaryOp.ofSymbol? operator = some o.op ∧ value = .temp o.result := by
  obtain ⟨f, c, p, code, c'⟩ := t
  obtain rfl : p = .expr (.binary loc operator left right) value := ht
  have hlowers := h.lowers
  obtain ⟨rule, parts⟩ := hlowers
  cases rule with
  | @binary _ _ c₁ c₂ _ _ op _ _ lhs rhs leftCode rightCode hop =>
    have hfirst := h.part_of [] (.binary hop) parts
    have hsecond := h.part_of [.part ⟨f, c, .expr left lhs, leftCode, c₁⟩] (.binary hop) parts
    have hplaced := h.placed
    simp only [codeOf_part, codeOf_own, Placed.append_iff, Placed.cons_iff] at hplaced
    rw [codeOf_part, codeOf_nil, List.append_nil] at hsecond
    exact ⟨⟨_, ⟨f, c₁, .expr right rhs, rightCode, c₂⟩, lhs, rhs, op, _, _, hfirst, rfl, hsecond,
      rfl, le_rfl, hplaced.2.2.1⟩, hop, rfl⟩

end Lowering

namespace Interpretation

variable {V : Type*} (I : Interpretation V) {s : Segment} {off : Nat} {left right : Node}

/-- From the start of a binary operator, the machine runs to the end of the left operand, then to
the end of the right one, where it reads both. -/
theorem operatorCode_runs
    (once : ∀ j m label, Streams.DefinesAt s.code j label → Streams.DefinesAt s.code m label →
      j = m)
    (o : OperatorCode s off left right) (m : Env V) :
    ∃ m₁ m₂ v u w,
      I.Reaches s.code ⟨off, m, none⟩ ⟨o.middle, m₁, none⟩ ∧ I.operand m₁ o.lhs = some v ∧
      I.Reaches s.code ⟨o.middle, m₁, none⟩ ⟨o.stop, m₂, none⟩ ∧ I.operand m₂ o.rhs = some w ∧
      I.operand m₂ o.lhs = some u ∧
      I.step s.code ⟨o.stop, m₂, none⟩ =
        some (.running ⟨o.stop + 1, Function.update m₂ o.result (I.operation o.op u w), none⟩) ∧
      ((∀ x, o.lhs.name? = some (.text x) → ¬ Writes o.second.code x) → u = v) := by
  obtain ⟨m₁, hreach₁, -⟩ :=
    runsThrough_of_lowers (I := I) once o.first_occurs.lowers o.first_phrase o.first_occurs.placed
      rfl m
  obtain ⟨m₂, hreach₂, hkeep⟩ :=
    runsThrough_of_lowers (I := I) once o.second_occurs.lowers o.second_phrase
      o.second_occurs.placed rfl m₁
  obtain ⟨v, hv⟩ := exists_operand (I := I) o.lhs_plain m₁
  obtain ⟨u, hu⟩ := exists_operand (I := I) o.lhs_plain m₂
  obtain ⟨w, hw⟩ := exists_operand (I := I) o.rhs_plain m₂
  refine ⟨m₁, m₂, v, u, w, hreach₁, hv, hreach₂, hw, hu, step_binary o.operation hu hw,
    fun hx => ?_⟩
  have hsame := operand_congr (I := I) fun x hname => hkeep x (hx x hname)
  rw [hu, hv] at hsame
  exact Option.some.inj hsame

/-- Where the names of the source and those of temporaries do not meet and no operator changes the
variable of its left operand, the machine reads the values that the operands have by direct
evaluation. -/
theorem operatorCode_evaluates
    (once : ∀ j m label, Streams.DefinesAt s.code j label → Streams.DefinesAt s.code m label →
      j = m)
    (o : OperatorCode s off left right) {loc : Option Location} {operator : String}
    (faithful : ∀ n, Node.Subtree n (.binary loc operator left right) → n.Faithful) {m e : Env V}
    (hm : Agree m e) :
    ∃ v e₁ w e₂ m₂, I.eval left e = some (v, e₁) ∧ I.eval right e₁ = some (w, e₂) ∧
      I.Reaches s.code ⟨off, m, none⟩ ⟨o.stop, m₂, none⟩ ∧
      I.operand m₂ o.lhs = some v ∧ I.operand m₂ o.rhs = some w := by
  have hbelow (n : Node) (value : Operand) (hn : n ∈ [left, right]) :
      (Phrase.expr n value).Throughout Node.Faithful := by
    intro k hk j hj
    obtain rfl := List.mem_singleton.mp hk
    exact faithful j (.under hn hj)
  have hleft : I.Computes s.code off o.middle left o.lhs o.first.before.temps := by
    have hcorrect : I.Correct s.code o.first :=
      correct_of_lowers once o.first_occurs.lowers (o.first_phrase ▸ hbelow left o.lhs (by simp))
    have hmeans := hcorrect o.first_occurs.placed rfl
    rwa [o.first_phrase] at hmeans
  have hright : I.Computes s.code o.middle o.stop right o.rhs o.second.before.temps := by
    have hcorrect : I.Correct s.code o.second :=
      correct_of_lowers once o.second_occurs.lowers (o.second_phrase ▸ hbelow right o.rhs (by simp))
    have hmeans := hcorrect o.second_occurs.placed rfl
    rwa [o.second_phrase] at hmeans
  obtain ⟨v, e₁, m₁, hv, hreach₁, hm₁, hlhs, -⟩ := hleft hm
  obtain ⟨w, e₂, m₂, hw, hreach₂, hm₂, hrhs, hkeep⟩ := hright hm₁
  have hfirst := o.first_occurs.lowers
  rw [← o.first.eta o.first_phrase] at hfirst
  have hsame : I.operand m₂ o.lhs = I.operand m₁ o.lhs :=
    operand_survives hfirst (hbelow left o.lhs (by simp)) (faithful _ (.root _)) hm₁ hm₂ hw
      fun k hk => hkeep k (hk.trans_le o.first_temps)
  exact ⟨v, e₁, w, e₂, m₂, hv, hw, hreach₁.trans hreach₂, hsame.trans hlhs, hrhs⟩

end Interpretation

/-- When a binary operator reads its operands, in the code of any tree and for any values. From
every environment the machine evaluates the left operand and then the right one, and then executes
the operation. That reads the right operand with the value `w` that it was left with. Of the left
operand it reads the value `u` that the holding name has by now; this is the value `v` that the left
operand was left with, unless the code of the right operand writes the name. -/
theorem operator_reads_operands {limits : Limits} {V : Type*} (I : Interpretation V) {tree : Node}
    {code : List Instruction} {c : Counters} (hlower : tree.lowerCounting limits = .ok (code, c))
    {off : Nat} {t : Segment} {loc : Option Location} {operator : String} {left right : Node}
    {value : Operand} (h : Occurs (.ofTree tree code c) off t)
    (ht : t.phrase = .expr (.binary loc operator left right) value) :
    ∃ o : OperatorCode (.ofTree tree code c) off left right,
      BinaryOp.ofSymbol? operator = some o.op ∧ value = .temp o.result ∧
      (∀ m : Env V, ∃ m₁ m₂ v u w,
        I.Reaches code ⟨off, m, none⟩ ⟨o.middle, m₁, none⟩ ∧ I.operand m₁ o.lhs = some v ∧
        I.Reaches code ⟨o.middle, m₁, none⟩ ⟨o.stop, m₂, none⟩ ∧ I.operand m₂ o.rhs = some w ∧
        I.operand m₂ o.lhs = some u ∧
        I.step code ⟨o.stop, m₂, none⟩ =
          some (.running ⟨o.stop + 1, Function.update m₂ o.result (I.operation o.op u w), none⟩) ∧
        ((∀ x, o.lhs.name? = some (.text x) → ¬ Writes o.second.code x) → u = v)) ∧
      (∀ x, o.lhs.name? = some (.text x) →
        left.variable? = some x ∨ ∃ k < o.second.before.temps, x = tempName k) ∧
      (∀ x, Writes o.second.code x ↔ right.Assigns x ∨
        ∃ k, o.second.before.temps ≤ k ∧ k < o.second.after.temps ∧ x = tempName k) ∧
      ((Phrase.expr (.binary loc operator left right) value).Throughout Node.Faithful →
        ∀ m e : Env V, Agree m e → ∃ v e₁ w e₂ m₂,
          I.eval left e = some (v, e₁) ∧ I.eval right e₁ = some (w, e₂) ∧
          I.Reaches code ⟨off, m, none⟩ ⟨o.stop, m₂, none⟩ ∧
          I.operand m₂ o.lhs = some v ∧ I.operand m₂ o.rhs = some w) := by
  obtain ⟨o, hop, hvalue⟩ := exists_operatorCode h ht
  have hw := wellStructured_of_lower (lower_of_lowerCounting hlower)
  refine ⟨o, hop, hvalue, fun m => I.operatorCode_runs hw.once o m, fun x => o.lhs_name,
    fun x => writes_iff o.second_occurs.lowers o.second_phrase, fun faithful m e hm => ?_⟩
  exact I.operatorCode_evaluates hw.once o (faithful _ (List.mem_singleton_self _)) hm

/-- An operator whose right operand changes the variable that holds the left one:
`x = a + (a = 2)`. -/
def readsLate : Node :=
  let name (s : String) := Node.identifier none s
  .expression none (.assignment none "=" (name "x") (.binary none "+" (name "a")
    (.assignment none "=" (name "a") (.literal none (.int 2) "2"))))

/-- From one for `a`, the left operand is one when it is evaluated, and two when the addition reads
it. -/
theorem readsLate_left_operand_changes :
    ∃ code, readsLate.lower {} = .ok code ∧
      code[1]? = some (.binary .add "t0" (.var "a") (.var "a") .unknown) ∧
      integers.operand (Function.update 0 "a" 1) (.var "a") = some 1 ∧
      (∃ m, integers.Reaches code ⟨0, Function.update 0 "a" 1, none⟩ ⟨1, m, none⟩ ∧
        integers.operand m (.var "a") = some 2) ∧
      (∃ e, integers.Halts code (Function.update 0 "a" 1) .normal e ∧ e "x" = 4) ∧
      ∃ e, integers.Executes readsLate (Function.update 0 "a" 1) .normal e ∧ e "x" = 3 := by
  refine ⟨_, rfl, rfl, rfl, ⟨_, .one rfl, rfl⟩, ⟨_, ⟨4, rfl⟩, rfl⟩, ?_⟩
  rw [readsLate, Interpretation.Executes]
  exact ⟨_, ⟨rfl, _, rfl⟩, rfl⟩

def storesThree : Node := .assignment none "=" (.identifier none "a") (.literal none (.int 3) "3")

def copiesA : Node := .assignment none "=" (.identifier none "b") (.identifier none "a")

/-- Assignments in both operands, to different variables: `(a = 3) - (b = a)`. -/
def readsInTime : Node := .binary none "-" storesThree copiesA

theorem copiesA_assigns {x : String} (h : copiesA.Assigns x) : x = "b" := by
  by_contra hx
  refine Node.not_assigns_iff.mpr ?_ h
  simp only [copiesA, Node.forall_subtree (n := .assignment _ _ _ _),
    Node.forall_subtree (n := .identifier _ _), Node.children, List.forall_mem_cons]
  simp [Ne.symm hx]

/-- Neither operand touches what holds the other, so both are read as they were left. -/
theorem readsInTime_operands_kept :
    ∃ code c off t value, readsInTime.lowerCounting {} = .ok (code, c) ∧
      Occurs (.ofTree readsInTime code c) off t ∧ t.phrase = .expr readsInTime value ∧
      ∃ o : OperatorCode (.ofTree readsInTime code c) off storesThree copiesA,
        ∀ m : Env Int, ∃ m₁ m₂ v w,
          integers.Reaches code ⟨off, m, none⟩ ⟨o.middle, m₁, none⟩ ∧
          integers.operand m₁ o.lhs = some v ∧
          integers.Reaches code ⟨o.middle, m₁, none⟩ ⟨o.stop, m₂, none⟩ ∧
          integers.operand m₂ o.lhs = some v ∧ integers.operand m₂ o.rhs = some w := by
  obtain ⟨⟨code, c⟩, hcode⟩ : ∃ r, readsInTime.lowerCounting {} = .ok r := ⟨_, rfl⟩
  have hoccurs : ∃ off t value, Occurs (.ofTree readsInTime code c) off t ∧
      t.phrase = .expr readsInTime value := by
    have hlowers := lowers_ofTree hcode
    rw [readsInTime, Segment.ofTree] at hlowers ⊢
    obtain ⟨rule, parts⟩ := hlowers
    have hwhole := Occurs.whole (.intro rule parts)
    cases rule with
    | bare => exact ⟨_, _, _, hwhole.part_of [] .bare parts, rfl⟩
  obtain ⟨off, t, value, ht, hphrase⟩ := hoccurs
  obtain ⟨o, -, -, hruns, hname, hwrites, -⟩ := operator_reads_operands integers hcode ht hphrase
  refine ⟨code, c, off, t, value, hcode, ht, hphrase, o, fun m => ?_⟩
  obtain ⟨m₁, m₂, v, u, w, hreach₁, hv, hreach₂, hw, hu, -, hsame⟩ := hruns m
  refine ⟨m₁, m₂, v, w, hreach₁, hv, hreach₂, ?_, hw⟩
  rw [← hsame ?_]
  · exact hu
  · intro x hx hwritten
    have hb : isTemporary "b" = false := by decide
    rcases hname x hx with ha | ⟨k, hk, rfl⟩
    · obtain rfl : "a" = x := Option.some.inj ha
      have ha : isTemporary "a" = false := by decide
      rcases (hwrites "a").mp hwritten with hassigns | ⟨k, -, -, htemp⟩
      · exact absurd (copiesA_assigns hassigns) (by decide)
      · exact ne_tempName ha k htemp
    · rcases (hwrites _).mp hwritten with hassigns | ⟨j, hj, -, htemp⟩
      · exact ne_tempName hb k (copiesA_assigns hassigns).symm
      · rw [tempName_inj] at htemp
        omega

end Sil
