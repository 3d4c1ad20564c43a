import Mathlib
import Sil.Proofs.EmissionDepth

/-!
An emission instruction by instruction: the state after each prefix of a stream, and everything that
one instruction can do to a state. `after_invariant` carries what every instruction keeps along a
stream; `Performs` says once what an instruction does, so that its consequences never open the
emission.
-/
namespace Sil.Emission
open EmissionState

/-- The state after the first `k` instructions of a stream, each with the one after it in view. -/
def after (b : Backend) : EmissionState → List Instruction → Nat → Except Error EmissionState
  | s, _, 0 => .ok s
  | s, [], _ + 1 => .ok s
  | s, i :: rest, k + 1 => do
    let s ← step b rest.head? s i
    after b s rest k

variable {b : Backend} {s s' t : EmissionState} {i : Instruction} {is : List Instruction} {k : Nat}

@[simp] theorem after_zero : after b s is 0 = .ok s := by
  cases is <;> rfl

theorem run_eq_after : run b s is = after b s is is.length := by
  induction is generalizing s with
  | nil => rfl
  | cons i rest ih =>
    unfold run
    rw [List.length_cons, after]
    exact congrArg _ (funext fun t => ih)

theorem after_succ (hi : is[k]? = some i) :
    after b s is (k + 1) = after b s is k >>= fun t => step b is[k + 1]? t i := by
  induction is generalizing s k with
  | nil => cases hi
  | cons j rest ih =>
    rw [after]
    cases k with
    | zero =>
      cases hi
      have hnext : (i :: rest)[0 + 1]? = rest.head? := by
        rw [List.head?_eq_getElem?, List.getElem?_cons_succ]
      rw [hnext]
      cases hstep : step b rest.head? s i with
      | error e => simp [after, hstep, bind, Except.bind]
      | ok t => simp [after, hstep, bind, Except.bind]
    | succ k =>
      rw [List.getElem?_cons_succ] at hi
      rw [after, List.getElem?_cons_succ]
      cases step b rest.head? s j with
      | error e => rfl
      | ok t => exact ih hi

/-- What holds at the start and is kept by every instruction holds after each prefix. -/
theorem after_invariant {P : Nat → EmissionState → Prop} (start : P 0 s)
    (next : ∀ k i t t', is[k]? = some i → P k t → step b is[k + 1]? t i = .ok t' → P (k + 1) t')
    (hk : k ≤ is.length) (h : after b s is k = .ok s') : P k s' := by
  induction k generalizing s' with
  | zero =>
    rw [after_zero] at h
    cases h
    exact start
  | succ k ih =>
    have hi : is[k]? = some is[k] := List.getElem?_eq_getElem hk
    rw [after_succ hi] at h
    obtain ⟨t, ht, hstep⟩ := bind_eq_ok.mp h
    exact next k is[k] t s' hi (ih (by omega) ht) hstep

/-- A stream that is emitted is emitted up to every position. -/
theorem exists_after (h : run b s is = .ok s') (hk : k ≤ is.length) :
    ∃ t, after b s is k = .ok t := by
  rw [run_eq_after] at h
  obtain ⟨d, hd⟩ := Nat.exists_eq_add_of_le hk
  induction d generalizing k with
  | zero => exact ⟨s', by rwa [hd] at h⟩
  | succ d ih =>
    obtain ⟨t, ht⟩ := ih (k := k + 1) (by omega) (by omega)
    have hi : is[k]? = some is[k] := List.getElem?_eq_getElem (by omega)
    rw [after_succ hi] at ht
    obtain ⟨u, hu, -⟩ := bind_eq_ok.mp ht
    exact ⟨u, hu⟩

/-- Reading operands uses their names one after the other. -/
theorem noteReads_eq {operands : List Operand} (h : noteReads b s operands = .ok t) :
    t = (operands.filterMap Operand.name?).foldl (fun s n => s.noteUse b n b.defaultType) s := by
  induction operands generalizing s with
  | nil =>
    cases h
    rfl
  | cons o rest ih =>
    unfold noteReads at h
    split at h
    · rename_i hname
      rw [List.filterMap_cons_none hname]
      exact ih h
    · rename_i n hname
      rw [List.filterMap_cons_some hname]
      split at h
      · cases h
      · exact ih h

/-- What the use of a name leaves alone is left alone by reading operands. -/
theorem noteReads_frame {α : Type} {f : EmissionState → α} {operands : List Operand}
    (hf : ∀ s n type, f (s.noteUse b n type) = f s) (h : noteReads b s operands = .ok t) :
    f t = f s := by
  rw [noteReads_eq h]
  clear h
  generalize operands.filterMap Operand.name? = names
  induction names generalizing s with
  | nil => rfl
  | cons n names ih => exact ih.trans (hf s n b.defaultType)

theorem control_noteReads {operands : List Operand} (h : noteReads b s operands = .ok t) :
    t.control = s.control :=
  noteReads_frame (fun s n type => control_noteUse b s n type) h

inductive Enters (s : EmissionState) : EmissionState → Prop
  | nothing (h : s.header = none) : Enters s s
  | function {header : Header} (h : s.header = some header) :
      Enters s
        { ({ s with header := none } : EmissionState).openBlock .function header.name
            (.openFunction (Name.ofOption header.name) (header.params.map Name.ofOption)) with
          scopes := ScopeMap.setNames (s.depth + 1)
            ((header.params.map Name.ofOption).foldl (fun ns n => n.addTo ns) []) s.scopes }

theorem enters_of_openFunction (h : openFunction b s = .ok s') : Enters s s' := by
  unfold openFunction at h
  cases hh : s.header with
  | none =>
    rw [hh] at h
    cases h
    exact .nothing hh
  | some header =>
    rw [hh] at h
    dsimp only at h
    split at h
    · cases h
    · cases h
      exact .function hh

theorem Enters.header_eq_none (h : Enters s s') : s'.header = none := by
  cases h with
  | nothing hnone => exact hnone
  | function => rfl

/-- A stream that is accepted has nothing pending at its end, so the state is that after its last
instruction. -/
theorem after_length_of_emit (h : emit b is = .ok s) :
    after b (initial b) is is.length = .ok s ∧ s.header = none := by
  obtain ⟨t, ht, h⟩ := bind_eq_ok.mp h
  obtain ⟨u, hu, h⟩ := bind_eq_ok.mp h
  rw [run_eq_after] at ht
  cases enters_of_openFunction hu with
  | nothing hnone =>
    split at h
    · cases h
    · split at h
      · cases h
        exact ⟨ht, hnone⟩
      · obtain ⟨label, -, h⟩ := bind_eq_ok.mp h
        cases h
  | function => cases h

def awaitLabel (s : EmissionState) (label : Option String) : EmissionState :=
  { s with
    forwardTargets :=
      if s.definedLabels.contains label || s.forwardTargets.contains label then s.forwardTargets
      else s.forwardTargets ++ [label] }

def meetLabel (s : EmissionState) (label : Option String) : EmissionState :=
  { s with
    definedLabels := s.definedLabels ++ [label]
    forwardTargets := s.forwardTargets.filter (· != label) }

/-- Everything that an instruction can do to a state in which no function is pending. -/
inductive Performs (b : Backend) (upcoming : Option Instruction) (s : EmissionState)
    (i : Instruction) : EmissionState → Prop
  | declareUntyped (hb : b = .python) (ho : i.opcode = .decl) :
      Performs b upcoming s i
        (({ s with
          declared := (Name.ofOption i.name).addTo s.declared
          scopes := s.scopes.add s.depth (Name.ofOption i.name) } :
            EmissionState).writeStatement (.declare .untyped (Name.ofOption i.name)))
  | declareTyped {type : ValueType} (hb : b = .cpp) (ho : i.opcode = .decl)
      (hnew : (Name.ofOption i.name).isIn (s.scopes.names s.depth) = false)
      (htype : declaredType i.name upcoming = .ok type) :
      Performs b upcoming s i
        (({ s with
          declared := (Name.ofOption i.name).addTo s.declared
          types := (Name.ofOption i.name).setTypeIn type s.types
          scopes := s.scopes.add s.depth (Name.ofOption i.name) } :
            EmissionState).writeStatement (.declare type (Name.ofOption i.name)))
  | declareAgain (hb : b = .cpp) (ho : i.opcode = .decl)
      (hold : (Name.ofOption i.name).isIn (s.scopes.names s.depth) = true) :
      Performs b upcoming s i { s with declared := (Name.ofOption i.name).addTo s.declared }
  | mov {t : EmissionState} {source : Operand} {rest : List Operand} (ho : i.opcode = .mov)
      (hsource : i.operands = source :: rest) (hreads : noteReads b s i.operands = .ok t) :
      Performs b upcoming s i
        ((t.noteUse b (Name.ofOption i.dest) (resultType b t i)).writeStatement
          (.assign (Name.ofOption i.dest) (.copy source)))
  | binary {t : EmissionState} {op : BinaryOp} {left right : Operand} (ho : i.opcode = .binary op)
      (hsource : i.operands = [left, right]) (hreads : noteReads b s i.operands = .ok t) :
      Performs b upcoming s i
        ((t.noteUse b (Name.ofOption i.dest) (resultType b t i)).writeStatement
          (.assign (Name.ofOption i.dest) (.operation op left right)))
  | cmp {t : EmissionState} {test : Operand} {rest : List Operand} (ho : i.opcode = .cmp)
      (htest : i.operands = test :: rest) (hreads : noteReads b s i.operands = .ok t) :
      Performs b upcoming s i { t with tested := some test }
  | branch {test : Operand} (ho : i.opcode.isConditionalJump) (htest : s.tested = some test)
      (hnew : i.label ∉ s.definedLabels) :
      Performs b upcoming s i
        (({ awaitLabel s i.label with tested := none } : EmissionState).openBlock .branch i.label
          (.openBranch (i.opcode == .jumpIfFalse) test))
  | jump (ho : i.opcode = .jump) (hopen : s.control.closesBefore upcoming = false) :
      Performs b upcoming s i ((awaitLabel s i.label).write (.jumpMark (Name.ofOption i.label)))
  | jumpClosing (ho : i.opcode = .jump) (hclose : s.control.closesBefore upcoming = true) :
      Performs b upcoming s i
        (((awaitLabel s i.label).write (.jumpMark (Name.ofOption i.label))).closeBlock b)
  | label (ho : i.opcode = .label) (hnew : i.label ∉ s.definedLabels)
      (hopen : (.branch, i.label) ∉ s.control.blocks) :
      Performs b upcoming s i ((meetLabel s i.label).write (.labelMark (Name.ofOption i.label)))
  | labelClosing (ho : i.opcode = .label) (hnew : i.label ∉ s.definedLabels)
      (hclose : s.control.closes i.label = true) :
      Performs b upcoming s i
        ((meetLabel (s.closeBlock b) i.label).write (.labelMark (Name.ofOption i.label)))
  | func (ho : i.opcode = .func) (hout : s.inFunction = false) :
      Performs b upcoming s i { s with header := some { name := i.name } }
  | param {header : Header} (ho : i.opcode = .param) (hheader : s.header = some header) :
      Performs b upcoming s i
        { s with
          header := some { header with params := header.params ++ [i.name] }
          declared := (Name.ofOption i.name).addTo s.declared }
  | endFunc {block : Block} {rest : List Block} (ho : i.opcode = .endFunc)
      (hblocks : s.blocks = block :: rest) (hkind : block.kind = .function) :
      Performs b upcoming s i (s.closeBlock b)
  | ret {t : EmissionState} (ho : i.opcode = .ret) (hreads : noteReads b s i.operands = .ok t) :
      Performs b upcoming s i (t.writeStatement (.ret i.operands.head? t.inFunction))

variable {upcoming : Option Instruction}

private theorem performs_declare (ho : i.opcode = .decl) (h : declare b upcoming s i = .ok s') :
    Performs b upcoming s i s' := by
  unfold declare at h
  cases b with
  | python =>
    cases h
    exact .declareUntyped rfl ho
  | cpp =>
    dsimp only at h
    split at h
    · rename_i hold
      cases h
      exact .declareAgain rfl ho hold
    · rename_i hnew
      obtain ⟨type, htype, h⟩ := bind_eq_ok.mp h
      cases h
      exact .declareTyped rfl ho (Bool.eq_false_iff.mpr hnew) htype

private theorem performs_branch (ho : i.opcode.isConditionalJump)
    (h : branch s i (i.opcode == .jumpIfFalse) = .ok s') : Performs b upcoming s i s' := by
  unfold branch at h
  cases htest : s.tested with
  | none =>
    rw [htest] at h
    cases h
  | some test =>
    rw [htest] at h
    cases hd : s.definedLabels.contains i.label with
    | true =>
      simp only [hd, ↓reduceIte] at h
      cases h
    | false =>
      simp only [hd, Bool.false_eq_true, ↓reduceIte] at h
      obtain ⟨u, -, h⟩ := bind_eq_ok.mp h
      cases h
      have hnew : i.label ∉ s.definedLabels := by simpa using hd
      have hawait : (if s.forwardTargets.contains i.label then s.forwardTargets
          else s.forwardTargets ++ [i.label]) = (awaitLabel s i.label).forwardTargets := by
        simp only [awaitLabel, hd, Bool.false_or]
      rw [hawait]
      exact .branch ho htest hnew

private theorem performs_jump (ho : i.opcode = .jump) :
    Performs b upcoming s i (Emission.jump b upcoming s i) := by
  have hawait : (if s.definedLabels.contains i.label || s.forwardTargets.contains i.label then s
      else { s with forwardTargets := s.forwardTargets ++ [i.label] }) = awaitLabel s i.label := by
    unfold awaitLabel
    split <;> rfl
  have hcloses :
      ((awaitLabel s i.label).write (.jumpMark (Name.ofOption i.label))).closesInnermost =
      s.control.closes := funext fun label => closesInnermost_eq s label
  unfold Emission.jump
  rw [hawait]
  cases upcoming with
  | none => exact .jump ho rfl
  | some next =>
    dsimp only
    rw [hcloses]
    split
    · rename_i hclose
      exact .jumpClosing ho (by simpa [Control.closesBefore] using hclose)
    · rename_i hopen
      exact .jump ho (by simpa [Control.closesBefore] using hopen)

private theorem performs_label (ho : i.opcode = .label) (h : defineLabel b s i = .ok s') :
    Performs b upcoming s i s' := by
  unfold defineLabel at h
  cases hd : s.definedLabels.contains i.label with
  | true =>
    simp only [hd, ↓reduceIte] at h
    cases h
  | false =>
    have hnew : i.label ∉ s.definedLabels := by simpa using hd
    simp only [hd, Bool.false_eq_true, ↓reduceIte, any_branch_eq] at h
    split at h
    · rename_i hclose
      cases h
      exact .labelClosing ho hnew ((closesInnermost_eq s i.label).symm.trans hclose)
    · split at h
      · cases h
      · rename_i hopen
        cases h
        exact .label ho hnew (by simpa using hopen)

private theorem twoOperands_eq_ok {operands : List Operand} {left right : Operand}
    (h : twoOperands operands = .ok (left, right)) : operands = [left, right] := by
  obtain ⟨u, -, h⟩ := bind_eq_ok.mp h
  split at h
  · cases h
    rfl
  · cases h
  · cases h
  · cases h

theorem performs_of_perform (h : perform b upcoming s i = .ok s') : Performs b upcoming s i s' := by
  unfold perform at h
  cases hop : i.opcode with
  | decl =>
    rw [hop] at h
    exact performs_declare hop h
  | mov =>
    rw [hop] at h
    dsimp only at h
    split at h
    · cases h
    · rename_i hsource
      obtain ⟨u, -, h⟩ := bind_eq_ok.mp h
      obtain ⟨t, hreads, h⟩ := bind_eq_ok.mp h
      cases h
      exact .mov hop hsource hreads
  | binary op =>
    rw [hop] at h
    obtain ⟨⟨left, right⟩, hsource, h⟩ := bind_eq_ok.mp h
    obtain ⟨t, hreads, h⟩ := bind_eq_ok.mp h
    cases h
    exact .binary hop (twoOperands_eq_ok hsource) hreads
  | cmp =>
    rw [hop] at h
    obtain ⟨t, hreads, h⟩ := bind_eq_ok.mp h
    split at h
    · cases h
    · rename_i htest
      cases h
      exact .cmp hop htest hreads
  | jumpIfFalse | jumpIfTrue =>
    rw [hop] at h
    refine performs_branch (by rw [hop]; rfl) ?_
    rw [hop]
    exact h
  | jump =>
    rw [hop] at h
    cases h
    exact performs_jump hop
  | label =>
    rw [hop] at h
    exact performs_label hop h
  | func =>
    rw [hop] at h
    dsimp only at h
    split at h
    · cases h
    · rename_i hout
      cases h
      exact .func hop (Bool.eq_false_iff.mpr hout)
  | param =>
    rw [hop] at h
    dsimp only at h
    split at h
    · cases h
    · rename_i hheader
      cases h
      exact .param hop hheader
  | endFunc =>
    rw [hop] at h
    dsimp only at h
    split at h
    · cases h
    · rename_i hblocks
      split at h
      · rename_i hkind
        cases h
        exact .endFunc hop hblocks hkind
      · cases h
  | ret =>
    rw [hop] at h
    obtain ⟨t, hreads, h⟩ := bind_eq_ok.mp h
    have hret : Performs b upcoming s i _ := .ret hop hreads
    split at h
    · rename_i hnone
      cases h
      rwa [hnone] at hret
    · rename_i hsome
      obtain ⟨u, -, h⟩ := bind_eq_ok.mp h
      cases h
      rwa [hsome] at hret

/-- A step opens the pending function, unless its instruction lists a parameter, and performs the
instruction. -/
theorem step_cases (h : step b upcoming s i = .ok s') : ∃ t u,
    ((i.opcode = .param ∧ t = s) ∨ (i.opcode ≠ .param ∧ Enters s t)) ∧
      (t.tested = none ∨ i.opcode.isConditionalJump = true) ∧ Performs b upcoming t i u ∧
      s' = { u with depthTrace := u.depthTrace ++ [u.depth] } := by
  rw [step_eq] at h
  obtain ⟨t, ht, h⟩ := bind_eq_ok.mp h
  obtain ⟨_, hcheck, h⟩ := bind_eq_ok.mp h
  obtain ⟨u, hu, h⟩ := bind_eq_ok.mp h
  cases h
  refine ⟨t, u, ?_, Control.checkTested_eq_ok.mp hcheck, performs_of_perform hu, rfl⟩
  split at ht
  · rename_i hparam
    cases ht
    exact .inl ⟨hparam, rfl⟩
  · rename_i hparam
    exact .inr ⟨hparam, enters_of_openFunction ht⟩

/-- An instruction leaves the trace of depths alone. -/
theorem Performs.depthTrace_eq (h : Performs b upcoming s i s') : s'.depthTrace = s.depthTrace := by
  have hclose (s : EmissionState) : (s.closeBlock b).depthTrace = s.depthTrace := by
    unfold closeBlock
    split
    · rfl
    · dsimp only
      split <;> split <;> rfl
  have huse (s : EmissionState) (n : Name) (type : ValueType) :
      (s.noteUse b n type).depthTrace = s.depthTrace := by
    unfold noteUse
    split <;> rfl
  cases h with
  | mov _ _ hreads | binary _ _ hreads => exact (huse _ _ _).trans (noteReads_frame huse hreads)
  | cmp _ _ hreads | ret _ hreads =>
    have hread := noteReads_frame huse hreads
    exact hread
  | jumpClosing => exact hclose _
  | labelClosing => exact hclose s
  | endFunc => exact hclose s
  | _ => rfl

theorem Enters.depthTrace_eq (h : Enters s s') : s'.depthTrace = s.depthTrace := by
  cases h <;> rfl

/-- A step appends the depth that it ends at to the trace. -/
theorem depthTrace_step (h : step b upcoming s i = .ok s') :
    s'.depthTrace = s.depthTrace ++ [s'.depth] := by
  obtain ⟨t, u, henter, -, hperforms, rfl⟩ := step_cases h
  have ht : t.depthTrace = s.depthTrace := by
    rcases henter with ⟨-, rfl⟩ | ⟨-, henters⟩
    · rfl
    · exact henters.depthTrace_eq
  show u.depthTrace ++ [u.depth] = s.depthTrace ++ [u.depth]
  rw [hperforms.depthTrace_eq, ht]

end Sil.Emission
