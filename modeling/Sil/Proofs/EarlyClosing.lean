import Mathlib
import Sil.Proofs.BackendAgreement
import Sil.Proofs.OpenPositions

/-!
A jump in front of a label. The label closes its branch by itself, so a jump before it that already
closes the branch should change nothing. How an emission goes on depends on its state up to
`course`: the lines, the noted depths and the labels waited for are written and never read. So it is
enough that both streams come out of the label with the same course (`alike_labelled`). They do not
when two branches wait for the label: then the jump closes one and the label the other, while the
label alone leaves one open for good.
-/
namespace Sil

namespace EmissionState

/-- A state without what no later instruction looks at: the lines, the noted depths, and the labels
that jumps wait for. -/
def course (s : EmissionState) : EmissionState :=
  { s with lines := [], forwardTargets := [], depthTrace := [] }

/-- States from which an emission goes on in the same way. -/
def SameCourse (s t : EmissionState) : Prop := s.course = t.course

namespace SameCourse

variable {s t : EmissionState}

/-- What looks at the course only, and keeps it apart from the rest, keeps states alike. -/
theorem map (h : SameCourse s t) (f : EmissionState → EmissionState)
    (hf : ∀ s, (f s).course = (f s.course).course) : SameCourse (f s) (f t) := by
  unfold SameCourse at h ⊢
  rw [hf s, hf t, h]

theorem apply {α : Type} (h : SameCourse s t) (f : EmissionState → α) (hf : ∀ s, f s = f s.course) :
    f s = f t := by
  rw [hf s, hf t, h]

theorem writeStatement (h : SameCourse s t) (content : Content) :
    SameCourse (s.writeStatement content) (t.writeStatement content) :=
  h.map (·.writeStatement content) fun _ => rfl

theorem openBlock (h : SameCourse s t) (kind : BlockKind) (label : Option String)
    (opener : Content) :
    SameCourse (s.openBlock kind label opener) (t.openBlock kind label opener) :=
  h.map (·.openBlock kind label opener) fun _ => rfl

theorem closeBlock (h : SameCourse s t) (b : Backend) :
    SameCourse (s.closeBlock b) (t.closeBlock b) := by
  refine h.map (·.closeBlock b) fun s => ?_
  unfold EmissionState.closeBlock
  have hblocks : s.course.blocks = s.blocks := rfl
  rw [hblocks]
  split
  · rfl
  · dsimp only
    split <;> split <;> rfl

theorem noteUse (h : SameCourse s t) (b : Backend) (n : Name) (type : ValueType) :
    SameCourse (s.noteUse b n type) (t.noteUse b n type) := by
  refine h.map (EmissionState.noteUse b · n type) fun s => ?_
  unfold EmissionState.noteUse
  have hknows : s.course.knows n = s.knows n := rfl
  rw [hknows]
  split <;> rfl

end SameCourse
end EmissionState

namespace Emission
open EmissionState Streams

variable {b : Backend} {s s' t t' : EmissionState} {i j d : Instruction}
  {is xs ys zs : List Instruction} {k : Nat} {upcoming : Option Instruction}

theorem sameCourse_noteReads (h : SameCourse s t) (operands : List Operand) :
    Alike SameCourse (noteReads b s operands) (noteReads b t operands) := by
  induction operands generalizing s t with
  | nil => exact .succeeds h
  | cons o rest ih =>
    unfold noteReads
    cases o.name? with
    | none => exact ih h
    | some n =>
      dsimp only
      cases n.unhashable? with
      | some kind => exact .fails _
      | none => exact ih (h.noteUse b n b.defaultType)

theorem sameCourse_assign (h : SameCourse s t) (source : Source) :
    Alike SameCourse (assign b s i source) (assign b t i source) := by
  refine (sameCourse_noteReads h i.operands).bind fun u v huv => .succeeds ?_
  have htype : resultType b u i = resultType b v i := huv.apply (resultType b · i) fun _ => rfl
  rw [htype]
  exact (huv.noteUse b _ _).writeStatement _

/-- A check that looks at no state has the same outcome on both sides. -/
theorem sameCourse_check {α : Type} {x : Except Error α} {f g : α → Except Error EmissionState}
    (h : ∀ a, Alike SameCourse (f a) (g a)) : Alike SameCourse (x >>= f) (x >>= g) := by
  cases x with
  | error e => exact .fails e
  | ok a => exact h a

theorem sameCourse_declare (h : SameCourse s t) :
    Alike SameCourse (declare b upcoming s i) (declare b upcoming t i) := by
  unfold declare
  cases b with
  | python => exact .succeeds (h.map (fun s => ({ s with
      declared := (Name.ofOption i.name).addTo s.declared
      scopes := s.scopes.add s.depth (Name.ofOption i.name) } : EmissionState).writeStatement _)
      fun _ => rfl)
  | cpp =>
    have hnames : s.scopes.names s.depth = t.scopes.names t.depth :=
      h.apply (fun s => s.scopes.names s.depth) fun _ => rfl
    dsimp only
    rw [hnames]
    split
    · exact .succeeds (h.map (fun s => { s with
        declared := (Name.ofOption i.name).addTo s.declared }) fun _ => rfl)
    · exact sameCourse_check fun type => .succeeds (h.map (fun s => ({ s with
        declared := (Name.ofOption i.name).addTo s.declared
        types := (Name.ofOption i.name).setTypeIn type s.types
        scopes := s.scopes.add s.depth (Name.ofOption i.name) } : EmissionState).writeStatement _)
        fun _ => rfl)

theorem sameCourse_branch (h : SameCourse s t) (whenFalse : Bool) :
    Alike SameCourse (branch s i whenFalse) (branch t i whenFalse) := by
  have htested : s.tested = t.tested := h.apply (·.tested) fun _ => rfl
  have hdefined : s.definedLabels.contains i.label = t.definedLabels.contains i.label :=
    h.apply (·.definedLabels.contains i.label) fun _ => rfl
  unfold branch
  rw [htested, hdefined]
  cases t.tested with
  | none => exact .fails _
  | some test =>
    dsimp only
    split
    · exact .fails _
    · refine sameCourse_check fun _ => .succeeds (SameCourse.openBlock ?_ _ _ _)
      exact h.map (fun s => { s with
        tested := none
        forwardTargets := if s.forwardTargets.contains i.label then s.forwardTargets
          else s.forwardTargets ++ [i.label] }) fun _ => rfl

theorem closesInnermost_congr (h : SameCourse s t) : s.closesInnermost = t.closesInnermost :=
  h.apply (·.closesInnermost) fun _ => rfl

/-- A jump does nothing to the course, unless it closes a block. -/
theorem sameCourse_jump (b : Backend) (upcoming : Option Instruction) (s : EmissionState)
    (i : Instruction) : SameCourse (jump b upcoming s i)
      (if s.control.closesBefore upcoming then s.closeBlock b else s) := by
  have hmark : SameCourse
      ((if s.definedLabels.contains i.label || s.forwardTargets.contains i.label then s
        else { s with forwardTargets := s.forwardTargets ++ [i.label] }).write
          (.jumpMark (Name.ofOption i.label))) s := by
    split <;> rfl
  unfold jump
  dsimp only
  cases upcoming with
  | none => exact hmark
  | some next =>
    dsimp only
    rw [closesInnermost_congr hmark, closesInnermost_eq, Control.closesBefore]
    simp only [beq_eq_decide]
    split
    · exact hmark.closeBlock b
    · exact hmark

theorem sameCourse_defineLabel (h : SameCourse s t) :
    Alike SameCourse (defineLabel b s i) (defineLabel b t i) := by
  have hdefined : s.definedLabels = t.definedLabels := h.apply (·.definedLabels) fun _ => rfl
  have hblocks : s.blocks = t.blocks := h.apply (·.blocks) fun _ => rfl
  have hmeet {u v : EmissionState} (huv : SameCourse u v) : SameCourse
      (({ u with
        definedLabels := u.definedLabels ++ [i.label]
        forwardTargets := u.forwardTargets.filter (· != i.label) } : EmissionState).write
          (.labelMark (Name.ofOption i.label)))
      (({ v with
        definedLabels := v.definedLabels ++ [i.label]
        forwardTargets := v.forwardTargets.filter (· != i.label) } : EmissionState).write
          (.labelMark (Name.ofOption i.label))) :=
    huv.map (fun u => ({ u with
        definedLabels := u.definedLabels ++ [i.label]
        forwardTargets := u.forwardTargets.filter (· != i.label) } : EmissionState).write
          (.labelMark (Name.ofOption i.label))) fun _ => rfl
  unfold defineLabel
  rw [hdefined, closesInnermost_congr h, hblocks]
  dsimp only
  split
  · exact .fails _
  · split
    · exact .succeeds (hmeet (h.closeBlock b))
    · split
      · exact .fails _
      · exact .succeeds (hmeet h)

/-- An instruction does the same to two states of the same course. -/
theorem sameCourse_perform (h : SameCourse s t) :
    Alike SameCourse (perform b upcoming s i) (perform b upcoming t i) := by
  have hheader : s.header = t.header := h.apply (·.header) fun _ => rfl
  have hblocks : s.blocks = t.blocks := h.apply (·.blocks) fun _ => rfl
  have hfunction : s.inFunction = t.inFunction := h.apply (·.inFunction) fun _ => rfl
  unfold perform
  cases i.opcode with
  | decl => exact sameCourse_declare h
  | mov =>
    cases i.operands with
    | nil => exact .fails _
    | cons source rest => exact sameCourse_check fun _ => sameCourse_assign h (.copy source)
  | binary op => exact sameCourse_check fun operands => sameCourse_assign h _
  | cmp =>
    refine (sameCourse_noteReads h i.operands).bind fun u v huv => ?_
    cases i.operands with
    | nil => exact .fails _
    | cons test rest => exact .succeeds (huv.map (({ · with tested := some test })) fun _ => rfl)
  | jumpIfFalse => exact sameCourse_branch h true
  | jumpIfTrue => exact sameCourse_branch h false
  | jump =>
    have hcloses : s.control.closesBefore upcoming = t.control.closesBefore upcoming :=
      h.apply (·.control.closesBefore upcoming) fun s => by
        cases upcoming <;> rfl
    refine .succeeds ((sameCourse_jump b upcoming s i).trans
      (.trans ?_ (sameCourse_jump b upcoming t i).symm))
    rw [hcloses]
    split
    · exact h.closeBlock b
    · exact h
  | label => exact sameCourse_defineLabel h
  | func =>
    dsimp only
    rw [hfunction]
    split
    · exact .fails _
    · exact .succeeds (h.map (({ · with header := some { name := i.name } })) fun _ => rfl)
  | param =>
    dsimp only
    rw [hheader]
    cases t.header with
    | none => exact .fails _
    | some header =>
      exact .succeeds (h.map (fun s => { s with
        header := some { header with params := header.params ++ [i.name] }
        declared := (Name.ofOption i.name).addTo s.declared }) fun _ => rfl)
  | endFunc =>
    dsimp only
    rw [hblocks]
    cases t.blocks with
    | nil => exact .fails _
    | cons block rest =>
      dsimp only
      split
      · exact .succeeds (h.closeBlock b)
      · exact .fails _
  | ret =>
    refine (sameCourse_noteReads h i.operands).bind fun u v huv => ?_
    have hout : u.inFunction = v.inFunction := huv.apply (·.inFunction) fun _ => rfl
    rw [hout]
    cases i.operands with
    | nil => exact .succeeds (huv.writeStatement _)
    | cons value rest => exact sameCourse_check fun _ => .succeeds (huv.writeStatement _)

theorem sameCourse_openFunction (h : SameCourse s t) :
    Alike SameCourse (openFunction b s) (openFunction b t) := by
  have hheader : s.header = t.header := h.apply (·.header) fun _ => rfl
  unfold openFunction
  rw [hheader]
  cases t.header with
  | none => exact .succeeds h
  | some header =>
    dsimp only
    split
    · exact .fails _
    · exact .succeeds (h.map (fun s => { ({ s with header := none } : EmissionState).openBlock
          .function header.name
          (.openFunction (Name.ofOption header.name) (header.params.map Name.ofOption)) with
        scopes := ScopeMap.setNames (s.depth + 1)
          ((header.params.map Name.ofOption).foldl (fun ns n => n.addTo ns) []) s.scopes })
        fun _ => rfl)

/-- One instruction takes states of the same course to such states, or is refused in both. -/
theorem sameCourse_step (h : SameCourse s t) :
    Alike SameCourse (step b upcoming s i) (step b upcoming t i) := by
  rw [step_eq, step_eq]
  have henter : Alike SameCourse (if i.opcode = .param then .ok s else openFunction b s)
      (if i.opcode = .param then .ok t else openFunction b t) := by
    split
    · exact .succeeds h
    · exact sameCourse_openFunction h
  refine henter.bind fun u v huv => ?_
  have hcheck : u.control.checkTested i = v.control.checkTested i :=
    huv.apply (·.control.checkTested i) fun _ => rfl
  rw [hcheck]
  exact sameCourse_check fun _ => (sameCourse_perform huv).bind fun u' v' huv' =>
    .succeeds (huv'.map (fun s => { s with depthTrace := s.depthTrace ++ [s.depth] }) fun _ => rfl)

/-- A stream takes states of the same course to such states, or is refused from both. -/
theorem sameCourse_after (h : SameCourse s t) :
    Alike SameCourse (after b s is k) (after b t is k) := by
  induction is generalizing s t k with
  | nil =>
    cases k with
    | zero => exact .succeeds h
    | succ k => exact .succeeds h
  | cons i rest ih =>
    cases k with
    | zero => exact .succeeds h
    | succ k => exact (sameCourse_step h).bind fun u v huv => ih huv

/-- A state in which nothing is pending: the function whose parameters were listed is open, and no
tested operand waits for a conditional jump. -/
def settle (b : Backend) (s : EmissionState) : Except Error EmissionState := do
  let s ← openFunction b s
  match s.tested with
  | none => return s
  | some test =>
    if test.isWritable then throw (.malformedFlow test.text .testNotUsed)
    else throw (.fault (.digitLimit none))

theorem settle_eq_ok (h : settle b s = .ok t) : Enters s t ∧ t.tested = none := by
  obtain ⟨u, hu, h⟩ := bind_eq_ok.mp h
  cases htested : u.tested with
  | none =>
    rw [htested] at h
    cases h
    exact ⟨enters_of_openFunction hu, htested⟩
  | some test =>
    rw [htested] at h
    dsimp only at h
    split at h <;> cases h

def performNoting (b : Backend) (upcoming : Option Instruction) (s : EmissionState)
    (i : Instruction) : Except Error EmissionState := do
  let s ← perform b upcoming s i
  return { s with depthTrace := s.depthTrace ++ [s.depth] }

/-- A jump or a label is performed once nothing is pending. -/
theorem step_eq_settle (hparam : i.opcode ≠ .param) (hbranch : i.opcode.isConditionalJump = false) :
    step b upcoming s i = settle b s >>= (performNoting b upcoming · i) := by
  rw [step_eq, if_neg hparam]
  unfold settle
  cases openFunction b s with
  | error e => rfl
  | ok t =>
    cases htested : t.tested with
    | none => simp [Control.checkTested, EmissionState.control, htested, bind, Except.bind, pure,
        Except.pure, performNoting]
    | some test =>
      by_cases hw : test.isWritable <;>
        simp [Control.checkTested, EmissionState.control, htested, hbranch, hw, bind, Except.bind,
          throw, throwThe, MonadExceptOf.throw]

theorem settle_of_settled (hheader : s.header = none) (htested : s.tested = none) :
    settle b s = .ok s := by
  simp [settle, openFunction, hheader, htested, bind, Except.bind, pure, Except.pure]

theorem step_of_settled (hparam : i.opcode ≠ .param) (hbranch : i.opcode.isConditionalJump = false)
    (hheader : s.header = none) (htested : s.tested = none) :
    step b upcoming s i = performNoting b upcoming s i := by
  rw [step_eq_settle hparam hbranch, settle_of_settled hheader htested]
  rfl

theorem SameCourse.alike_trans {x y z : Except Error EmissionState} (h : Alike SameCourse x y)
    (h' : Alike SameCourse y z) : Alike SameCourse x z := by
  cases h with
  | fails e => exact h'
  | succeeds hxy =>
    cases h' with
    | succeeds hyz => exact .succeeds (hxy.trans hyz)

/-- A jump is never refused once nothing is pending. -/
theorem performNoting_jump (b : Backend) (upcoming : Option Instruction) (s : EmissionState)
    (hj : j.opcode = .jump) : ∃ t, performNoting b upcoming s j = .ok t ∧
    SameCourse t (if s.control.closesBefore upcoming then s.closeBlock b else s) := by
  have hperform : perform b upcoming s j = .ok (jump b upcoming s j) := by
    simp [perform, hj, pure, Except.pure]
  have hnote : SameCourse { jump b upcoming s j with
      depthTrace := (jump b upcoming s j).depthTrace ++ [(jump b upcoming s j).depth] }
      (jump b upcoming s j) := rfl
  exact ⟨_, by simp [performNoting, hperform, bind, Except.bind, pure, Except.pure],
    hnote.trans (sameCourse_jump b upcoming s j)⟩

/-- Of two jumps in a row the first does nothing to the course. -/
theorem sameCourse_jump_jump (hi : i.opcode = .jump) (hj : j.opcode = .jump) :
    Alike SameCourse (step b upcoming s i) (step b (some j) s i >>= (step b upcoming · j)) := by
  rw [step_eq_settle (by simp [hi]) (by simp [hi, Opcode.isConditionalJump]),
    step_eq_settle (by simp [hi]) (by simp [hi, Opcode.isConditionalJump])]
  cases hs : settle b s with
  | error e => exact .fails e
  | ok t =>
    obtain ⟨henters, htested⟩ := settle_eq_ok hs
    obtain ⟨u, hu, hut⟩ := performNoting_jump b (some j) t hi
    obtain ⟨v, hv, hvt⟩ := performNoting_jump b upcoming t hi
    obtain ⟨w, hw, hwt⟩ := performNoting_jump b upcoming t hj
    have hsame : SameCourse u t := by simpa [Control.closesBefore, hj] using hut
    have hstep : step b upcoming t j = .ok w := by
      rw [step_of_settled (by simp [hj]) (by simp [hj, Opcode.isConditionalJump])
        henters.header_eq_none htested, hw]
    have hnext : Alike SameCourse (.ok w) (step b upcoming u j) := by
      rw [← hstep]
      exact sameCourse_step hsame.symm
    rw [ok_bind, ok_bind, hu, hv, ok_bind]
    exact SameCourse.alike_trans (.succeeds (hvt.trans hwt.symm)) hnext

/-- A label that closed its only branch finds the state as it does when the branch is closed
already. -/
theorem defineLabel_closeBlock (hclose : s.control.closes i.label)
    (hone : s.control.blocks.count (.branch, i.label) ≤ 1) :
    defineLabel b (s.closeBlock b) i = defineLabel b s i := by
  have hcontrol := control_closeBlock b s
  have hdefined : (s.closeBlock b).definedLabels = s.definedLabels :=
    congrArg Control.defined hcontrol
  obtain ⟨rest, hblocks⟩ : ∃ rest, s.control.blocks = (.branch, i.label) :: rest := by
    rw [Control.closes, beq_iff_eq, List.head?_eq_some_iff] at hclose
    exact hclose
  have hout : (.branch, i.label) ∉ (s.closeBlock b).control.blocks := by
    have hrest : (s.closeBlock b).control.blocks = rest := by
      rw [hcontrol, Control.close, hblocks, List.tail_cons]
    rw [hblocks, List.count_cons_self] at hone
    rw [hrest]
    exact List.count_eq_zero.mp (by omega)
  have hopen : (s.closeBlock b).control.closes i.label = false := by
    rw [Control.closes, beq_eq_false_iff_ne]
    intro hhead
    exact hout (List.mem_of_head? hhead)
  have hcontains : (s.closeBlock b).control.blocks.contains (.branch, i.label) = false := by
    simpa using hout
  unfold defineLabel
  rw [hdefined, any_branch_eq, closesInnermost_eq, closesInnermost_eq, hcontains, hopen, hclose]
  rfl

/-- A jump in front of a label for which at most one branch waits does nothing to the course. -/
theorem sameCourse_jump_label (hj : j.opcode = .jump) (hd : d.opcode = .label)
    (hone : s.control.enter.blocks.count (.branch, d.label) ≤ 1) :
    Alike SameCourse (step b upcoming s d) (step b (some d) s j >>= (step b upcoming · d)) := by
  rw [step_eq_settle (by simp [hd]) (by simp [hd, Opcode.isConditionalJump]),
    step_eq_settle (by simp [hj]) (by simp [hj, Opcode.isConditionalJump])]
  cases hs : settle b s with
  | error e => exact .fails e
  | ok t =>
    obtain ⟨henters, htested⟩ := settle_eq_ok hs
    rw [← henters.control_eq] at hone
    obtain ⟨u, hu, hut⟩ := performNoting_jump b (some d) t hj
    have hstep {w : EmissionState} (hw : w.control = t.control ∨ w.control = t.control.close) :
        step b upcoming w d = performNoting b upcoming w d := by
      have hheader : t.control.header = none := henters.header_eq_none
      refine step_of_settled (by simp [hd]) (by simp [hd, Opcode.isConditionalJump]) ?_ ?_
      · have hwheader : w.control.header = none := by
          rcases hw with hw | hw <;> rw [hw] <;> exact hheader
        exact hwheader
      · have hwtested : w.control.tested = none := by
          rcases hw with hw | hw <;> rw [hw] <;> exact htested
        exact hwtested
    have hnext : Alike SameCourse (step b upcoming _ d) (step b upcoming u d) :=
      sameCourse_step hut.symm
    rw [ok_bind, ok_bind, hu, ok_bind]
    refine SameCourse.alike_trans ?_ hnext
    split
    · rename_i hclose
      have hlabel : t.control.closes d.label := by simpa [Control.closesBefore, hd] using hclose
      have hperform :
          performNoting b upcoming (t.closeBlock b) d = performNoting b upcoming t d := by
        simp only [performNoting, perform, hd, defineLabel_closeBlock hlabel hone]
      rw [hstep (.inr (control_closeBlock b t)), hperform]
      exact .of_map_eq rfl
    · rw [hstep (.inl rfl)]
      exact .of_map_eq rfl

/-- A stream is run up to a position and then on from there. -/
theorem after_append (k : Nat) : after b s (xs ++ ys) (xs.length + k) =
    after b s (xs ++ ys) xs.length >>= (after b · ys k) := by
  induction xs generalizing s with
  | nil => simp [ok_bind]
  | cons i xs ih =>
    have hlength : (i :: xs).length + k = xs.length + k + 1 := by
      rw [List.length_cons]
      omega
    rw [hlength, List.cons_append, List.length_cons, after, after]
    cases step b (xs ++ ys).head? s i with
    | error e => rfl
    | ok t => exact ih

/-- The state after the first part of a stream depends on the rest by its lookahead only. -/
theorem after_append_congr
    (h : ∀ i t, xs.getLast? = some i → step b ys.head? t i = step b zs.head? t i) :
    after b s (xs ++ ys) xs.length = after b s (xs ++ zs) xs.length := by
  induction xs generalizing s with
  | nil => simp
  | cons i xs ih =>
    rw [List.cons_append, List.cons_append, List.length_cons, after, after]
    cases xs with
    | nil =>
      have hstep := h i s rfl
      rw [List.nil_append, List.nil_append, hstep]
      exact congrArg _ (funext fun t => by simp)
    | cons i' xs =>
      have hhead (ws : List Instruction) : ((i' :: xs) ++ ws).head? = some i' := rfl
      rw [hhead, hhead]
      refine congrArg _ (funext fun t => ih fun i t hi => h i t ?_)
      rwa [List.getLast?_cons_cons]

/-- Only a jump, and a declaration before a copy, looks at the instruction after it. -/
theorem step_upcoming {next : Option Instruction} (hi : i.opcode ≠ .jump)
    (hu : ∀ j, upcoming = some j → j.opcode ≠ .mov) (hn : ∀ j, next = some j → j.opcode ≠ .mov) :
    step b upcoming s i = step b next s i := by
  have htype {u : Option Instruction} (hu : ∀ j, u = some j → j.opcode ≠ .mov) :
      declaredType i.name u = .ok .int := by
    cases u with
    | none => rfl
    | some j => simp [declaredType, hu j rfl]
  have hperform (t : EmissionState) : perform b upcoming t i = perform b next t i := by
    unfold perform
    cases hop : i.opcode with
    | jump => exact absurd hop hi
    | decl =>
      simp only [declare, htype hu, htype hn]
    | _ => rfl
  simp only [step, hperform]

/-- Without a jump at its end, the first part of a stream ends as it does alone. -/
theorem after_append_left (hlast : ∀ i, xs.getLast? = some i → i.opcode ≠ .jump)
    (hnext : ∀ i, ys.head? = some i → i.opcode ≠ .mov) :
    after b s (xs ++ ys) xs.length = after b s xs xs.length := by
  have hcongr : after b s (xs ++ ys) xs.length = after b s (xs ++ []) xs.length :=
    after_append_congr fun i t hi => step_upcoming (hlast i hi) hnext (by simp)
  rwa [List.append_nil] at hcongr

theorem after_cons_succ : after b s (i :: is) (k + 1) =
    step b is.head? s i >>= (after b · is k) := rfl

theorem after_cons_one : after b s (i :: is) 1 = step b is.head? s i := by
  rw [after_cons_succ]
  cases step b is.head? s i with
  | error e => rfl
  | ok t => simp [ok_bind]

theorem after_cons_two : after b s (i :: j :: is) 2 =
    step b (some j) s i >>= (step b is.head? · j) := by
  rw [after_cons_succ]
  exact congrArg _ (funext fun t => after_cons_one)

/-- Whether a jump and the label after it would each close a branch: the jump is the first of its
kind there, and two open branches wait for the label. -/
def ClosesTwice (xs : List Instruction) (label : Option String) : Prop :=
  (∀ i, xs.getLast? = some i → i.opcode ≠ .jump) ∧
    2 ≤ ((openBefore xs xs.length).map (frame xs)).count (.branch, label)

/-- Streams with and without a jump in front of a label come out of the label with the same
course. -/
theorem alike_labelled (hj : j.opcode = .jump) (hd : d.opcode = .label)
    (hone : ¬ ClosesTwice xs d.label) :
    Alike SameCourse (after b (initial b) (xs ++ d :: ys) (xs.length + 1))
      (after b (initial b) (xs ++ j :: d :: ys) (xs.length + 2)) := by
  have hjump : j.opcode ≠ .mov := by simp [hj]
  have hlabel : d.opcode ≠ .mov := by simp [hd]
  by_cases hlast : ∀ i, xs.getLast? = some i → i.opcode ≠ .jump
  · -- The lookahead does not matter, so both streams reach the same state.
    rw [after_append, after_append, after_append_left hlast (by simp [hlabel]),
      after_append_left hlast (by simp [hjump])]
    cases hrun : after b (initial b) xs xs.length with
    | error e => exact .fails e
    | ok t =>
      have hblocks := blocks_after le_rfl hrun
      have hcount : t.control.enter.blocks.count (.branch, d.label) ≤ 1 := by
        rw [hblocks]
        exact Nat.le_of_lt_succ (Nat.lt_of_not_le fun htwo => hone ⟨hlast, htwo⟩)
      rw [ok_bind, ok_bind, after_cons_one, after_cons_two]
      exact sameCourse_jump_label hj hd hcount
  · push Not at hlast
    obtain ⟨i, hi, hop⟩ := hlast
    obtain ⟨ws, rfl⟩ := List.getLast?_eq_some_iff.mp hi
    have hlength : (ws ++ [i]).length = ws.length + 1 := List.length_append
    have hsame : after b (initial b) (ws ++ i :: j :: d :: ys) ws.length =
        after b (initial b) (ws ++ i :: d :: ys) ws.length :=
      after_append_congr fun _ _ _ => rfl
    rw [hlength, List.append_assoc, List.append_assoc, List.singleton_append, List.singleton_append,
      Nat.add_assoc, Nat.add_assoc, after_append, after_append, hsame]
    cases after b (initial b) (ws ++ i :: d :: ys) ws.length with
    | error e => exact .fails e
    | ok t =>
      have hjumps : Alike SameCourse (step b (some d) t i)
          (step b (some j) t i >>= (step b (some d) · j)) := sameCourse_jump_jump hop hj
      have hlabels : Alike SameCourse (step b (some d) t i >>= (step b ys.head? · d))
          (step b (some j) t i >>= (step b (some d) · j) >>= (step b ys.head? · d)) :=
        hjumps.bind fun u v huv => sameCourse_step huv
      rw [bind_assoc] at hlabels
      have hthree : after b t (i :: j :: d :: ys) (1 + 2) =
          step b (some j) t i >>= fun u => step b (some d) u j >>= (step b ys.head? · d) :=
        congrArg _ (funext fun u => after_cons_two)
      rw [ok_bind, ok_bind, after_cons_two, hthree]
      exact hlabels

/-- With the same course out of the label, the streams run on alike to their ends. -/
theorem alike_to_end (hj : j.opcode = .jump) (hd : d.opcode = .label)
    (hone : ¬ ClosesTwice xs d.label) :
    Alike SameCourse (after b (initial b) (xs ++ d :: ys) (xs ++ d :: ys).length)
      (after b (initial b) (xs ++ j :: d :: ys) (xs ++ j :: d :: ys).length) := by
  have hsplit (ws : List Instruction) : after b (initial b) (ws ++ ys) (ws ++ ys).length =
      after b (initial b) (ws ++ ys) ws.length >>= (after b · ys ys.length) := by
    rw [List.length_append, after_append]
  have hlabel : xs ++ d :: ys = (xs ++ [d]) ++ ys := by simp
  have hjump : xs ++ j :: d :: ys = (xs ++ [j, d]) ++ ys := by simp
  rw [hlabel, hjump, hsplit, hsplit, ← hlabel, ← hjump, List.length_append, List.length_append]
  exact (alike_labelled hj hd hone).bind fun u v huv => sameCourse_after huv

/-- A stream is accepted when its run leaves nothing open and no label missing. -/
theorem accepted_iff : (∃ s, emit b is = .ok s) ↔ ∃ t, after b (initial b) is is.length = .ok t ∧
    t.header = none ∧ t.blocks = [] ∧ t.forwardTargets = [] := by
  constructor
  · rintro ⟨s, hs⟩
    obtain ⟨hafter, hheader⟩ := after_length_of_emit hs
    obtain ⟨-, hblocks, htargets⟩ := emit_closed hs
    exact ⟨s, hafter, hheader, hblocks, htargets⟩
  · rintro ⟨t, ht, hheader, hblocks, htargets⟩
    refine ⟨t, ?_⟩
    unfold emit
    rw [run_eq_after, ht, ok_bind]
    simp [finish, openFunction, hheader, hblocks, htargets, bind, Except.bind, pure, Except.pure]

/-- The labels that are waited for are those that an instruction jumps to and none defines. -/
theorem mem_forwardTargets_after (h : after b (initial b) is is.length = .ok t)
    (label : Option String) : label ∈ t.forwardTargets ↔
      (∃ i ∈ is, (i.opcode = .jump ∨ i.opcode.isConditionalJump) ∧ i.label = label) ∧
        ∀ i ∈ is, ¬ (i.opcode = .label ∧ i.label = label) := by
  have hall := after_invariant (P := fun k t =>
    (label ∈ t.control.defined ↔ ∃ i ∈ is.take k, i.opcode = .label ∧ i.label = label) ∧
    (label ∈ t.control.awaited ↔
      (∃ i ∈ is.take k, (i.opcode = .jump ∨ i.opcode.isConditionalJump) ∧ i.label = label) ∧
        ∀ i ∈ is.take k, ¬ (i.opcode = .label ∧ i.label = label)))
    (by simp [EmissionState.control, initial]) ?_ le_rfl h
  · rw [List.take_length] at hall
    exact hall.2
  · rintro k i t t' hi ⟨hdefined, hawaited⟩ hstep
    have hmoves := step_moves hstep
    have htake : is.take (k + 1) = is.take k ++ [i] := by
      rw [List.take_add_one, hi, Option.toList_some]
    rw [moves_defined hmoves, mem_awaited_of_moves hmoves, htake]
    constructor
    · by_cases hop : i.opcode = .label
      · simp [hop, hdefined, or_and_right, exists_or, eq_comm]
      · simp [hop, hdefined, or_and_right, exists_or]
    · have hnone : (∀ i ∈ is.take k, ¬ (i.opcode = .label ∧ i.label = label)) ↔
          label ∉ t.control.defined := by
        rw [hdefined]
        simp only [not_exists, not_and]
      rw [hnone] at hawaited
      simp only [List.mem_append, List.mem_singleton, or_and_right, exists_or, exists_eq_left,
        or_imp, forall_and, forall_eq, hnone, hawaited, and_assoc]

/-- A jump to a label that is defined adds nothing to wait for. -/
theorem forwardTargets_eq_nil_iff (hj : j.opcode = .jump)
    (hdefined : ∃ i ∈ xs ++ ys, i.opcode = .label ∧ i.label = j.label)
    (ht : after b (initial b) (xs ++ ys) (xs ++ ys).length = .ok t)
    (ht' : after b (initial b) (xs ++ j :: ys) (xs ++ j :: ys).length = .ok t') :
    t.forwardTargets = [] ↔ t'.forwardTargets = [] := by
  have hmem (i : Instruction) : i ∈ xs ++ j :: ys ↔ i = j ∨ i ∈ xs ++ ys := by
    simp only [List.mem_append, List.mem_cons]
    tauto
  have hsame (label : Option String) : label ∈ t.forwardTargets ↔ label ∈ t'.forwardTargets := by
    rw [mem_forwardTargets_after ht, mem_forwardTargets_after ht']
    simp only [hmem, forall_eq_or_imp, exists_eq_or_imp]
    constructor
    · rintro ⟨hjumps, hnone⟩
      exact ⟨.inr hjumps, by simp [hj], hnone⟩
    · rintro ⟨⟨-, rfl⟩ | hjumps, -, hnone⟩
      · obtain ⟨i, hi, hdefines⟩ := hdefined
        exact absurd hdefines (hnone i hi)
      · exact ⟨hjumps, hnone⟩
  simp only [List.eq_nil_iff_forall_not_mem, hsame]

/-- A stream in which a label leaves a second branch open that waits for it is refused: no other
label can close that branch. -/
theorem refused_of_two_waiting (hd : d.opcode = .label) (h : ClosesTwice xs d.label) :
    ¬ ∃ s, emit b (xs ++ d :: ys) = .ok s := by
  rintro ⟨s, hs⟩
  obtain ⟨hlast, htwo⟩ := h
  have hget : (xs ++ d :: ys)[xs.length]? = some d := by simp
  obtain ⟨t, t', ht, hstep⟩ := exists_step hs hget
  have hlength : xs.length + 1 ≤ (xs ++ d :: ys).length := by simp
  -- Two branches wait in front of the label, since the lookahead plays no part there.
  have hrun : after b (initial b) xs xs.length = .ok t := by
    rwa [after_append_left hlast (by simp [hd])] at ht
  have hcount : 2 ≤ t.control.enter.blocks.count (.branch, d.label) := by
    rwa [blocks_after le_rfl hrun]
  -- The label closes one of them, so the other is still open after it.
  have hopen : (.branch, d.label) ∈ t'.control.enter.blocks := by
    obtain ⟨-, -, ⟨hout, -⟩ | ⟨rest, hblocks, hafter⟩⟩ := moves_label (step_moves hstep) hd
    · rw [List.count_eq_zero.mpr hout] at hcount
      omega
    · rw [hblocks, List.count_cons_self] at hcount
      have hrest : t'.control.enter.blocks = rest := by
        rw [hafter, enter_of_header_none (by simp [Control.define, Control.close])]
        simp [Control.define, Control.close, hblocks]
      rw [hrest]
      exact List.count_pos_iff.mp (by omega)
  have hnext : after b (initial b) (xs ++ d :: ys) (xs.length + 1) = .ok t' := by
    rw [after_succ hget, ht]
    exact hstep
  rw [blocks_after hlength hnext] at hopen
  obtain ⟨p, hp, hframe⟩ := List.mem_map.mp hopen
  obtain ⟨q, hspan, hq⟩ := (bracketed_of_emit hs).exists_span_of_mem hp hlength
  have hdefines := (hspan.branch ((opens_of_mem_openBefore p hp).branchesAt_of_frame hframe)).2
  have heq : q = xs.length :=
    (bracketed_of_emit hs).once q xs.length d.label hdefines ⟨d, hget, hd, rfl⟩
  omega

end Emission

open Emission EmissionState in
/-- Closing at a jump agrees with closing at the label after it, in both target languages. A stream
with a label is accepted exactly when it is accepted with a jump to a defined label put in front of
that label, unless the jump and the label would each close a branch; then it is refused. Where it is
accepted, both streams are at the same depth and have the same open blocks right after the label. -/
theorem jump_before_label_agrees (b : Backend) (xs ys : List Instruction) (j d : Instruction)
    (hj : j.opcode = .jump) (hd : d.opcode = .label)
    (hdefined : ∃ i ∈ xs ++ d :: ys, i.opcode = .label ∧ i.label = j.label) :
    ((∃ s, emit b (xs ++ d :: ys) = .ok s) ↔
      (∃ s, emit b (xs ++ j :: d :: ys) = .ok s) ∧ ¬ ClosesTwice xs d.label) ∧
    ((∃ s, emit b (xs ++ d :: ys) = .ok s) → ∃ t t',
      after b (initial b) (xs ++ d :: ys) (xs.length + 1) = .ok t ∧
      after b (initial b) (xs ++ j :: d :: ys) (xs.length + 2) = .ok t' ∧
      t'.depth = t.depth ∧ t'.blocks = t.blocks) := by
  by_cases htwice : ClosesTwice xs d.label
  · have hrefused : ¬ ∃ s, emit b (xs ++ d :: ys) = .ok s := refused_of_two_waiting hd htwice
    exact ⟨by simp [hrefused, htwice], fun h => absurd h hrefused⟩
  have hend : Alike SameCourse (after b (initial b) (xs ++ d :: ys) (xs ++ d :: ys).length)
      (after b (initial b) (xs ++ j :: d :: ys) (xs ++ j :: d :: ys).length) :=
    alike_to_end hj hd htwice
  have haccepted :
      (∃ s, emit b (xs ++ d :: ys) = .ok s) ↔ ∃ s, emit b (xs ++ j :: d :: ys) = .ok s := by
    rw [accepted_iff, accepted_iff]
    constructor
    · rintro ⟨t, ht, hheader, hblocks, htargets⟩
      obtain ⟨t', ht'⟩ := hend.ok_iff.mp ⟨t, ht⟩
      have hsame : SameCourse t t' := hend.related ht ht'
      exact ⟨t', ht', (hsame.apply (·.header) fun _ => rfl).symm.trans hheader,
        (hsame.apply (·.blocks) fun _ => rfl).symm.trans hblocks,
        (forwardTargets_eq_nil_iff hj hdefined ht ht').mp htargets⟩
    · rintro ⟨t', ht', hheader, hblocks, htargets⟩
      obtain ⟨t, ht⟩ := hend.ok_iff.mpr ⟨t', ht'⟩
      have hsame : SameCourse t t' := hend.related ht ht'
      exact ⟨t, ht, (hsame.apply (·.header) fun _ => rfl).trans hheader,
        (hsame.apply (·.blocks) fun _ => rfl).trans hblocks,
        (forwardTargets_eq_nil_iff hj hdefined ht ht').mpr htargets⟩
  refine ⟨by rw [haccepted, and_iff_left htwice], ?_⟩
  rintro ⟨s, hs⟩
  have hlabelled : Alike SameCourse (after b (initial b) (xs ++ d :: ys) (xs.length + 1))
      (after b (initial b) (xs ++ j :: d :: ys) (xs.length + 2)) := alike_labelled hj hd htwice
  obtain ⟨t, ht⟩ := exists_after (run_eq_after.trans (after_length_of_emit hs).1)
    (k := xs.length + 1) (by simp)
  obtain ⟨t', ht'⟩ := hlabelled.ok_iff.mp ⟨t, ht⟩
  have hsame : SameCourse t' t := (hlabelled.related ht ht').symm
  exact ⟨t, t', ht, ht', hsame.apply (·.depth) fun _ => rfl, hsame.apply (·.blocks) fun _ => rfl⟩

/-- A choice whose first alternative runs into the second. -/
def fallsThrough : List Instruction :=
  let loc := Location.unknown
  [.cmp (.var (.text "a")) loc, .jumpIfFalse "L0" loc, .decl "x" loc]

open Emission EmissionState in
/-- The jump over the second alternative closes the branch that the label closes without it. -/
theorem jump_over_alternative_agrees :
    let j := Instruction.jump "L1" .unknown
    let d := Instruction.mark "L0"
    let ys := [Instruction.decl "y" .unknown, .mark "L1"]
    (∃ s, emit .cpp (fallsThrough ++ j :: d :: ys) = .ok s) ∧
      ¬ ClosesTwice fallsThrough (some "L0") ∧ ∃ t t',
        after .cpp (initial .cpp) (fallsThrough ++ d :: ys) 4 = .ok t ∧
        after .cpp (initial .cpp) (fallsThrough ++ j :: d :: ys) 5 = .ok t' ∧
        t'.depth = t.depth ∧ t'.blocks = t.blocks := by
  intro j d ys
  have hdefined : ∃ i ∈ fallsThrough ++ d :: ys, i.opcode = .label ∧ i.label = j.label :=
    ⟨.mark "L1", by simp [ys], rfl, rfl⟩
  obtain ⟨haccepted, hagree⟩ := jump_before_label_agrees .cpp fallsThrough ys j d rfl rfl hdefined
  have hwithout : ∃ s, emit .cpp (fallsThrough ++ d :: ys) = .ok s := ⟨_, rfl⟩
  obtain ⟨hwith, honce⟩ := haccepted.mp hwithout
  exact ⟨hwith, honce, hagree hwithout⟩

def sharedTarget : List Instruction :=
  let loc := Location.unknown
  [.cmp (.var (.text "a")) loc, .jumpIfFalse "L0" loc, .cmp (.var (.text "b")) loc,
    .jumpIfFalse "L0" loc]

open Emission in
/-- With two branches at its label, a jump makes a stream acceptable that is refused without it. -/
theorem jump_closes_a_second_branch : ∃ j d : Instruction, j.opcode = .jump ∧ d.opcode = .label ∧
    (∃ i ∈ sharedTarget ++ [d], i.opcode = .label ∧ i.label = j.label) ∧
    ∀ b, (∃ s, emit b (sharedTarget ++ [j, d]) = .ok s) ∧
      ¬ ∃ s, emit b (sharedTarget ++ [d]) = .ok s := by
  refine ⟨.jump "L0" .unknown, .mark "L0", rfl, rfl, ⟨.mark "L0", by simp, rfl, rfl⟩, fun b => ?_⟩
  have hrefused : emit b (sharedTarget ++ [.mark "L0"]) =
      flowError (some "L0") (.neverClosed .branch) := by
    cases b <;> rfl
  refine ⟨?_, ?_⟩
  · cases b
    · exact ⟨_, rfl⟩
    · exact ⟨_, rfl⟩
  · rintro ⟨s, hs⟩
    rw [hrefused] at hs
    cases hs

end Sil
