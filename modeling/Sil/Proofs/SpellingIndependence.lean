import Mathlib
import Sil.Proofs.LoweringComplete
import Sil.Proofs.Unplaced

/-!
The spans of a tree and the spellings of its literals do not reach the generated text. Stripped of
both, a tree lowers to stripped code by the same rules, and a stripped stream takes the emission
through stripped states; a line of text shows the values of literals and not their spellings. So
trees that differ in spans and spellings only have the same texts, and trees that differ in spans
only also the same listing.
-/
namespace Sil

/-- A spelling that stands for all others. -/
def anySpelling : String := "_"

def Operand.stripped : Operand → Operand
  | .const value _ => .const value anySpelling
  | o => o

def Instruction.stripped (i : Instruction) : Instruction :=
  { i with operands := i.operands.map Operand.stripped, location := .unknown }

namespace Instruction

variable (i : Instruction)

@[simp] theorem stripped_opcode : i.stripped.opcode = i.opcode := rfl

@[simp] theorem stripped_name : i.stripped.name = i.name := rfl

@[simp] theorem stripped_dest : i.stripped.dest = i.dest := rfl

@[simp] theorem stripped_operands : i.stripped.operands = i.operands.map Operand.stripped := rfl

@[simp] theorem stripped_label : i.stripped.label = i.label := rfl

end Instruction

namespace Node

mutual

/-- A tree without its spans and the spellings of its literals. -/
def stripped : Node → Node
  | .program _ body => .program none (strippedAll body)
  | .declaration _ kind declarators => .declaration none kind (strippedAll declarators)
  | .declarator _ id init => .declarator none id.stripped (strippedSome init)
  | .literal _ value _ => .literal none value anySpelling
  | .identifier _ name => .identifier none name
  | .binary _ operator left right => .binary none operator left.stripped right.stripped
  | .logical _ operator left right => .logical none operator left.stripped right.stripped
  | .assignment _ operator left right => .assignment none operator left.stripped right.stripped
  | .expression _ inner => .expression none inner.stripped
  | .block _ body => .block none (strippedAll body)
  | .conditional _ test consequent alternate =>
    .conditional none test.stripped consequent.stripped (strippedSome alternate)
  | .whileLoop _ test body => .whileLoop none test.stripped body.stripped
  | .forLoop _ init test update body =>
    .forLoop none (strippedSome init) (strippedSome test) (strippedSome update) body.stripped
  | .function _ id params body => .function none id.stripped (strippedAll params) body.stripped
  | .ret _ argument => .ret none (strippedSome argument)
  | .foreign _ kind => .foreign none kind

def strippedAll : List Node → List Node
  | [] => []
  | n :: rest => n.stripped :: strippedAll rest

def strippedSome : Option Node → Option Node
  | none => none
  | some n => some n.stripped

end

@[simp] theorem strippedAll_eq (ns : List Node) : strippedAll ns = ns.map stripped := by
  induction ns with
  | nil => simp [strippedAll]
  | cons n rest ih => simp [strippedAll, ih]

@[simp] theorem strippedSome_eq (n : Option Node) : strippedSome n = n.map stripped := by
  cases n <;> simp [strippedSome]

end Node

namespace Lowering
open Instruction

def Phrase.stripped : Phrase → Phrase
  | .expr n value => .expr n.stripped value.stripped
  | .stmt n => .stmt n.stripped
  | .stmts ns => .stmts (ns.map Node.stripped)
  | .update n => .update (n.map Node.stripped)

def Segment.stripped (s : Segment) : Segment :=
  { s with phrase := s.phrase.stripped, code := s.code.map Instruction.stripped }

def Piece.stripped : Piece → Piece
  | .own i => .own i.stripped
  | .part s => .part s.stripped

theorem codeOf_stripped (ps : List Piece) :
    codeOf (ps.map Piece.stripped) = (codeOf ps).map Instruction.stripped := by
  induction ps with
  | nil => rfl
  | cons p ps ih =>
    rw [List.map_cons]
    cases p with
    | own i =>
      rw [codeOf_own, List.map_cons, ← ih]
      rfl
    | part t =>
      rw [codeOf_part, List.map_append, ← ih]
      rfl

theorem parameters_stripped {params : List Node} {code : List Instruction}
    (h : parameters params = .ok code) :
    parameters (params.map Node.stripped) = .ok (code.map Instruction.stripped) := by
  induction params generalizing code with
  | nil =>
    cases h
    rfl
  | cons p rest ih =>
    unfold parameters at h
    split at h
    · obtain ⟨restCode, hrest, h⟩ := bind_eq_ok.mp h
      cases h
      rw [List.map_cons, Node.stripped, parameters, ih hrest]
      rfl
    · cases h

/-- The jump of a logical operator has no operand, and its place from its argument. -/
theorem shortCut?_stripped {operator : String} {skip : String → Location → Instruction}
    (h : shortCut? operator = some skip) (label : String) (loc : Location) :
    (skip label loc).stripped = skip label .unknown := by
  obtain ⟨-, rfl⟩ | ⟨-, rfl⟩ := shortCut?_eq_some.mp h <;> rfl

/-- A rule applies without spans and spellings. -/
theorem Rule.stripped {f : Bool} {c c' : Counters} {p : Phrase} {pieces : List Piece}
    (rule : Rule f c p pieces c') : Rule f c p.stripped (pieces.map Piece.stripped) c' := by
  cases rule with
  | literal h =>
    obtain ⟨spelling, rfl⟩ := literal_eq_ok h
    exact .literal rfl
  | logical h =>
    simp only [List.map_cons, List.map_nil, Piece.stripped, shortCut?_stripped h]
    exact .logical h
  | @forLoop _ _ _ _ _ _ _ init =>
    have hinit : init.toList.map Node.stripped = (init.map Node.stripped).toList := by
      cases init <;> rfl
    simp only [List.map_cons, List.map_nil, Piece.stripped, Segment.stripped, Phrase.stripped,
      hinit, Node.stripped, Node.strippedSome_eq, Option.map_some]
    exact .forLoop
  | @endlessLoop _ _ _ _ _ _ init =>
    have hinit : init.toList.map Node.stripped = (init.map Node.stripped).toList := by
      cases init <;> rfl
    simp only [List.map_cons, List.map_nil, Piece.stripped, Segment.stripped, Phrase.stripped,
      hinit, Node.stripped, Node.strippedSome_eq, Option.map_none]
    exact .endlessLoop
  | @function _ _ _ _ _ _ _ paramCode _ h =>
    have hparams : (paramCode.map Piece.own).map Piece.stripped =
        (paramCode.map Instruction.stripped).map Piece.own := by
      simp only [List.map_map]
      rfl
    rw [List.cons_append, List.map_cons, List.map_append, hparams]
    simp only [Phrase.stripped, Node.stripped, Node.strippedAll_eq]
    exact .function (parameters_stripped h)
  | binary h => exact .binary h
  | identifier => exact .identifier
  | assignment => exact .assignment
  | program =>
    simpa [Phrase.stripped, Node.stripped, Piece.stripped, Segment.stripped] using .program
  | block => simpa [Phrase.stripped, Node.stripped, Piece.stripped, Segment.stripped] using .block
  | declaration =>
    simpa [Phrase.stripped, Node.stripped, Piece.stripped, Segment.stripped] using .declaration
  | declare => exact .declare
  | initialise => exact .initialise
  | expression => exact .expression
  | bare => exact .bare
  | conditional => exact .conditional
  | alternative => exact .alternative
  | whileLoop => exact .whileLoop
  | ret => exact .ret
  | retValue => exact .retValue
  | nil => exact .nil
  | cons => exact .cons
  | noUpdate => exact .noUpdate
  | someUpdate => exact .someUpdate

theorem Lowers.stripped {s : Segment} (h : Lowers s) : Lowers s.stripped := by
  induction h with
  | @intro f c c' p pieces rule parts ih =>
    refine .of_parts rule.stripped (eachPart_iff.mpr ?_) (codeOf_stripped pieces).symm
    intro t ht
    obtain ⟨piece, hpiece, hstripped⟩ := List.mem_map.mp ht
    cases piece with
    | own i => cases hstripped
    | part u =>
      cases hstripped
      exact ih u hpiece

/-- Trees that differ in spans and spellings only have code that differs in these only, if they have
code. -/
theorem lower_stripped_eq {limits : Limits} {m n : Node} {code code' : List Instruction}
    (h : m.stripped = n.stripped) (hm : m.lower limits = .ok code)
    (hn : n.lower limits = .ok code') :
    code.map Instruction.stripped = code'.map Instruction.stripped := by
  obtain ⟨c, hm⟩ := lowers_of_lower hm
  obtain ⟨c', hn⟩ := lowers_of_lower hn
  obtain ⟨r, hr⟩ := hm.stripped.isLowered
  obtain ⟨r', hr'⟩ := hn.stripped.isLowered
  have heq := hr (max r r') (le_max_left r r')
  have heq' := hr' (max r r') (le_max_right r r')
  simp only [Segment.IsLowered, Segment.stripped, Phrase.stripped] at heq heq'
  rw [h, heq'] at heq
  exact (congrArg Prod.fst (Except.ok.inj heq)).symm

end Lowering

def Source.stripped : Source → Source
  | .copy operand => .copy operand.stripped
  | .operation op left right => .operation op left.stripped right.stripped

def Content.stripped : Content → Content
  | .assign dest source => .assign dest source.stripped
  | .openBranch whenFalse test => .openBranch whenFalse test.stripped
  | .ret value inFunction => .ret (value.map Operand.stripped) inFunction
  | c => c

def EmissionState.stripped (s : EmissionState) : EmissionState :=
  { s with
    lines := s.lines.map fun l => ⟨l.depth, l.content.stripped⟩
    tested := s.tested.map Operand.stripped }

section
variable (b : Backend) (o : Operand)

@[simp] theorem Operand.stripped_name? : o.stripped.name? = o.name? := by cases o <;> rfl

@[simp] theorem Operand.stripped_isSpellable : o.stripped.isSpellable = o.isSpellable := by
  cases o <;> rfl

@[simp] theorem Backend.operand_stripped : b.operand o.stripped = b.operand o := by cases o <;> rfl

@[simp] theorem Emission.operandType_stripped (s : EmissionState) :
    operandType s.stripped o.stripped = operandType s o := by
  cases o <;> rfl

/-- A line reads the same without spellings. -/
@[simp] theorem Content.text_stripped (c : Content) : c.stripped.text b = c.text b := by
  cases c with
  | assign dest source => cases source <;> simp [stripped, Source.stripped, text, sourceText]
  | openBranch whenFalse test => cases b <;> simp [stripped, text]
  | ret value inFunction => cases value <;> simp [stripped, text]
  | _ => rfl

theorem Backend.textLines_stripped (indent : String) (s : EmissionState) :
    b.textLines indent s.stripped = b.textLines indent s := by
  have hlines : s.stripped.lines.map (Line.text b indent) = s.lines.map (Line.text b indent) := by
    simp [EmissionState.stripped, Line.text]
  have hprologue : b.prologue indent s.stripped = b.prologue indent s := by cases b <;> rfl
  rw [textLines, textLines, hlines, hprologue]

end

/-- Steps that each keep to a map keep to it together. -/
theorem bind_map_eq {α β : Type} {f : α → α} {g : β → β} {x y : Except Error α}
    {k l : α → Except Error β}
    (hx : y = x.map f) (hk : ∀ a, l (f a) = (k a).map g) : y >>= l = (x >>= k).map g := by
  subst hx
  cases x with
  | error e => rfl
  | ok a => exact hk a

namespace EmissionState

variable (b : Backend) (s : EmissionState)

@[simp] theorem stripped_blocks : s.stripped.blocks = s.blocks := rfl

@[simp] theorem stripped_tested : s.stripped.tested = s.tested.map Operand.stripped := rfl

@[simp] theorem stripped_definedLabels : s.stripped.definedLabels = s.definedLabels := rfl

@[simp] theorem stripped_forwardTargets : s.stripped.forwardTargets = s.forwardTargets := rfl

@[simp] theorem stripped_header : s.stripped.header = s.header := rfl

theorem stripped_write (c : Content) : (s.write c).stripped = s.stripped.write c.stripped := by
  simp [write, stripped]

theorem stripped_writeStatement (c : Content) :
    (s.writeStatement c).stripped = s.stripped.writeStatement c.stripped := by
  simp [writeStatement, write, stripped]

theorem stripped_openBlock (kind : BlockKind) (label : Option String) (opener : Content) :
    (s.openBlock kind label opener).stripped = s.stripped.openBlock kind label opener.stripped := by
  simp [openBlock, writeStatement, write, stripped]

theorem stripped_closeBlock : (s.closeBlock b).stripped = s.stripped.closeBlock b := by
  unfold closeBlock
  rw [stripped_blocks]
  split
  · rfl
  · dsimp only
    split <;> split <;> simp [write, stripped, Content.stripped]

theorem stripped_noteUse (n : Name) (type : ValueType) :
    (s.noteUse b n type).stripped = s.stripped.noteUse b n type := by
  have hknows : s.stripped.knows n = s.knows n := rfl
  unfold noteUse
  rw [hknows]
  split <;> rfl

theorem closesInnermost_stripped (label : Option String) :
    s.stripped.closesInnermost label = s.closesInnermost label := rfl

end EmissionState

namespace Emission
open EmissionState

variable (b : Backend) (s : EmissionState) (i : Instruction)

theorem noteReads_stripped (operands : List Operand) :
    noteReads b s.stripped (operands.map Operand.stripped) =
      (noteReads b s operands).map EmissionState.stripped := by
  induction operands generalizing s with
  | nil => rfl
  | cons o rest ih =>
    rw [List.map_cons]
    unfold noteReads
    rw [Operand.stripped_name?]
    cases o.name? with
    | none => exact ih s
    | some n =>
      dsimp only
      cases n.unhashable? with
      | some kind => rfl
      | none =>
        dsimp only
        rw [← stripped_noteUse]
        exact ih _

theorem resultType_stripped : resultType b s.stripped i.stripped = resultType b s i := by
  have htypes :
      i.stripped.operands.map (operandType s.stripped) = i.operands.map (operandType s) := by
    simp
  unfold resultType
  rw [htypes, Instruction.stripped_opcode]

theorem assign_stripped (source : Source) : assign b s.stripped i.stripped source.stripped =
    (assign b s i source).map EmissionState.stripped := by
  refine bind_map_eq (noteReads_stripped b s i.operands) fun t => ?_
  rw [resultType_stripped]
  simp [stripped_writeStatement, stripped_noteUse, Except.map, pure, Except.pure, Content.stripped]

theorem declaredType_stripped (name : Option String) (upcoming : Option Instruction) :
    declaredType name (upcoming.map Instruction.stripped) = declaredType name upcoming := by
  cases upcoming with
  | none => rfl
  | some next =>
    simp only [Option.map_some, declaredType, Instruction.stripped_opcode,
      Instruction.stripped_dest, Instruction.stripped_operands]
    cases next.operands with
    | nil => rfl
    | cons o rest => cases o <;> rfl

theorem declare_stripped (upcoming : Option Instruction) :
    declare b (upcoming.map Instruction.stripped) s.stripped i.stripped =
      (declare b upcoming s i).map EmissionState.stripped := by
  unfold declare
  cases b with
  | python =>
    simp only [Instruction.stripped_name, Except.map, pure, Except.pure, stripped_writeStatement]
    rfl
  | cpp =>
    have hscopes : s.stripped.scopes.names s.stripped.depth = s.scopes.names s.depth := rfl
    dsimp only
    rw [Instruction.stripped_name, declaredType_stripped, hscopes]
    split
    · rfl
    · cases declaredType i.name upcoming with
      | error e => rfl
      | ok type =>
        simp only [bind, Except.bind, Except.map, pure, Except.pure, stripped_writeStatement]
        rfl

theorem requireSpelling_stripped (o : Operand) :
    requireSpelling o.stripped = (requireSpelling o).map id := by
  rw [requireSpelling, requireSpelling, Operand.stripped_isSpellable, Except.map_id, id]

theorem twoOperands_stripped (operands : List Operand) :
    twoOperands (operands.map Operand.stripped) =
      (twoOperands operands).map fun p => (p.1.stripped, p.2.stripped) := by
  have hspelled (os : List Operand) : (os.map Operand.stripped).forM requireSpelling =
      os.forM requireSpelling := by
    rw [Control.forM_requireSpelling, Control.forM_requireSpelling]
    simp
  unfold twoOperands
  rw [← List.map_take, hspelled]
  cases (operands.take 3).forM requireSpelling with
  | error e => rfl
  | ok u =>
    rcases operands with _ | ⟨left, _ | ⟨right, _ | ⟨third, rest⟩⟩⟩ <;> rfl

theorem branch_stripped (whenFalse : Bool) : branch s.stripped i.stripped whenFalse =
    (branch s i whenFalse).map EmissionState.stripped := by
  unfold branch
  rw [stripped_tested]
  cases s.tested with
  | none => rfl
  | some test =>
    dsimp only [Option.map_some]
    rw [stripped_definedLabels, stripped_forwardTargets, Instruction.stripped_label]
    split
    · rfl
    · refine bind_map_eq (requireSpelling_stripped test) fun _ => ?_
      refine congrArg Except.ok (Eq.symm ?_)
      exact stripped_openBlock { s with
        tested := none
        forwardTargets :=
          if s.forwardTargets.contains i.label then s.forwardTargets
          else s.forwardTargets ++ [i.label] } .branch i.label (.openBranch whenFalse test)

theorem jump_stripped (upcoming : Option Instruction) :
    jump b (upcoming.map Instruction.stripped) s.stripped i.stripped =
      (jump b upcoming s i).stripped := by
  have hawait :
      (if s.stripped.definedLabels.contains i.label || s.stripped.forwardTargets.contains i.label
        then s.stripped
      else { s.stripped with forwardTargets := s.stripped.forwardTargets ++ [i.label] }) =
      (if s.definedLabels.contains i.label || s.forwardTargets.contains i.label then s
        else { s with forwardTargets := s.forwardTargets ++ [i.label] }).stripped := by
    rw [apply_ite EmissionState.stripped]
    rfl
  unfold jump
  rw [Instruction.stripped_label, hawait]
  generalize (if s.definedLabels.contains i.label || s.forwardTargets.contains i.label then s
    else { s with forwardTargets := s.forwardTargets ++ [i.label] }) = t
  have hmark : t.stripped.write (.jumpMark (Name.ofOption i.label)) =
      (t.write (.jumpMark (Name.ofOption i.label))).stripped :=
    (stripped_write t (.jumpMark (Name.ofOption i.label))).symm
  cases upcoming with
  | none => exact hmark
  | some next =>
    dsimp only [Option.map_some]
    rw [hmark]
    show (if next.opcode = .label &&
        (t.write (.jumpMark (Name.ofOption i.label))).closesInnermost next.label
      then _ else _) = _
    split
    · exact (stripped_closeBlock b _).symm
    · rfl

theorem defineLabel_stripped : defineLabel b s.stripped i.stripped =
    (defineLabel b s i).map EmissionState.stripped := by
  have hmark (t : EmissionState) : ({ t.stripped with
      definedLabels := t.stripped.definedLabels ++ [i.label]
      forwardTargets := t.stripped.forwardTargets.filter (· != i.label) } : EmissionState).write
        (.labelMark (Name.ofOption i.label)) =
      (({ t with
        definedLabels := t.definedLabels ++ [i.label]
        forwardTargets := t.forwardTargets.filter (· != i.label) } : EmissionState).write
          (.labelMark (Name.ofOption i.label))).stripped := by
    rw [stripped_write]
    rfl
  unfold defineLabel
  rw [Instruction.stripped_label, stripped_definedLabels, stripped_blocks, closesInnermost_stripped]
  cases s.definedLabels.contains i.label with
  | true => rfl
  | false =>
    simp only [Bool.false_eq_true, ↓reduceIte]
    split
    · rw [← stripped_closeBlock]
      exact congrArg Except.ok (hmark _)
    · split
      · rfl
      · exact congrArg Except.ok (hmark s)

theorem openFunction_stripped :
    openFunction b s.stripped = (openFunction b s).map EmissionState.stripped := by
  unfold openFunction
  rw [stripped_header]
  cases s.header with
  | none => rfl
  | some header =>
    dsimp only
    split
    · rfl
    · have hopen :
        ({ s.stripped with header := none } : EmissionState).openBlock .function header.name
            (.openFunction (Name.ofOption header.name) (header.params.map Name.ofOption)) =
          (({ s with header := none } : EmissionState).openBlock .function header.name
            (.openFunction (Name.ofOption header.name)
            (header.params.map Name.ofOption))).stripped := by
        rw [stripped_openBlock]
        rfl
      simp only [hopen]
      rfl

theorem perform_stripped (upcoming : Option Instruction) :
    perform b (upcoming.map Instruction.stripped) s.stripped i.stripped =
      (perform b upcoming s i).map EmissionState.stripped := by
  unfold perform
  rw [Instruction.stripped_opcode]
  cases i.opcode with
  | decl => exact declare_stripped b s i upcoming
  | mov =>
    dsimp only
    rw [Instruction.stripped_operands]
    cases i.operands with
    | nil => rfl
    | cons source rest =>
      refine bind_map_eq (requireSpelling_stripped source) fun _ => ?_
      exact assign_stripped b s i (.copy source)
  | binary op =>
    refine bind_map_eq (twoOperands_stripped i.operands) fun p => ?_
    exact assign_stripped b s i (.operation op p.1 p.2)
  | cmp =>
    refine bind_map_eq (noteReads_stripped b s i.operands) fun t => ?_
    rw [Instruction.stripped_operands]
    cases i.operands <;> rfl
  | jumpIfFalse => exact branch_stripped s i true
  | jumpIfTrue => exact branch_stripped s i false
  | jump => exact congrArg Except.ok (jump_stripped b s i upcoming)
  | label => exact defineLabel_stripped b s i
  | func =>
    have hin : s.stripped.inFunction = s.inFunction := rfl
    dsimp only
    rw [hin]
    split <;> rfl
  | param =>
    dsimp only
    rw [stripped_header]
    cases s.header <;> rfl
  | endFunc =>
    dsimp only
    rw [stripped_blocks]
    cases s.blocks with
    | nil => rfl
    | cons block rest =>
      dsimp only
      split
      · exact congrArg Except.ok (stripped_closeBlock b s).symm
      · rfl
  | ret =>
    refine bind_map_eq (noteReads_stripped b s i.operands) fun t => ?_
    rw [Instruction.stripped_operands]
    cases i.operands with
    | nil => exact congrArg Except.ok (stripped_writeStatement t (.ret none t.inFunction)).symm
    | cons value rest =>
      refine bind_map_eq (requireSpelling_stripped value) fun _ => ?_
      exact congrArg Except.ok (stripped_writeStatement t (.ret (some value) t.inFunction)).symm

variable {b s i}

/-- An instruction that is gone through is gone through without spellings. The other direction would
need more, since the error about an operand that stays tested tells its spelling. -/
theorem step_stripped {s' : EmissionState} {upcoming : Option Instruction}
    (h : step b upcoming s i = .ok s') :
    step b (upcoming.map Instruction.stripped) s.stripped i.stripped = .ok s'.stripped := by
  rw [step_eq] at h ⊢
  obtain ⟨t, hopen, h⟩ := bind_eq_ok.mp h
  obtain ⟨u, hcheck, h⟩ := bind_eq_ok.mp h
  obtain ⟨t', hperform, h⟩ := bind_eq_ok.mp h
  cases h
  have hopen' : (if i.stripped.opcode = .param then .ok s.stripped else openFunction b s.stripped) =
      .ok t.stripped := by
    rw [Instruction.stripped_opcode, openFunction_stripped]
    split at hopen
    next hparam =>
      cases hopen
      rw [if_pos hparam]
    next hparam =>
      rw [if_neg hparam, hopen]
      rfl
  have hcheck' : t.stripped.control.checkTested i.stripped = .ok () := by
    rw [Control.checkTested_eq_ok] at hcheck ⊢
    exact hcheck.imp_left (congrArg (Option.map Operand.stripped))
  have hperform' : perform b (upcoming.map Instruction.stripped) t.stripped i.stripped =
      .ok t'.stripped := by
    rw [perform_stripped, hperform]
    rfl
  rw [hopen', ok_bind, hcheck', ok_bind, hperform', ok_bind]
  rfl

theorem run_stripped {is : List Instruction} {s' : EmissionState} (h : run b s is = .ok s') :
    run b s.stripped (is.map Instruction.stripped) = .ok s'.stripped := by
  induction is generalizing s with
  | nil =>
    cases h
    rfl
  | cons i rest ih =>
    obtain ⟨t, hstep, h⟩ := bind_eq_ok.mp h
    rw [List.map_cons, run, List.head?_map, step_stripped hstep]
    exact ih h

theorem emit_stripped {is : List Instruction} {s : EmissionState} (h : emit b is = .ok s) :
    emit b (is.map Instruction.stripped) = .ok s.stripped := by
  obtain ⟨t, hrun, h⟩ := bind_eq_ok.mp h
  obtain ⟨u, hopen, h⟩ := bind_eq_ok.mp h
  have hrun' : run b (initial b) (is.map Instruction.stripped) = .ok t.stripped := run_stripped hrun
  have hopen' : openFunction b t.stripped = .ok u.stripped := by
    rw [openFunction_stripped, hopen]
    rfl
  rw [emit, hrun', ok_bind, finish, hopen', ok_bind]
  rw [stripped_blocks, stripped_forwardTargets]
  cases hb : u.blocks with
  | cons block rest =>
    rw [hb] at h
    cases h
  | nil =>
    rw [hb] at h
    dsimp only at h ⊢
    split at h
    · rename_i hempty
      cases h
      rw [if_pos hempty]
      rfl
    · obtain ⟨label, -, h⟩ := bind_eq_ok.mp h
      cases h

/-- Streams that differ in spans and spellings only have the same text, if they have one. -/
theorem render_eq_of_stripped_eq {is is' : List Instruction} {indent text text' : String}
    (h : is.map Instruction.stripped = is'.map Instruction.stripped)
    (htext : b.render indent is = .ok text) (htext' : b.render indent is' = .ok text') :
    text = text' := by
  obtain ⟨s, hs, htext⟩ := bind_eq_ok.mp htext
  obtain ⟨s', hs', htext'⟩ := bind_eq_ok.mp htext'
  cases htext
  cases htext'
  have hstates : s.stripped = s'.stripped := by
    have heq := emit_stripped hs
    rw [h, emit_stripped hs'] at heq
    exact (Except.ok.inj heq).symm
  rw [← b.textLines_stripped indent s, ← b.textLines_stripped indent s', hstates]

end Emission

/-- Lists of results are the same if the results are, one by one. -/
theorem mapM_eq_mapM {ε α β : Type} {f g : α → Except ε β} {xs : List α} {ys zs : List β}
    (h : ∀ x ∈ xs, ∀ y z, f x = .ok y → g x = .ok z → y = z) (hys : xs.mapM f = .ok ys)
    (hzs : xs.mapM g = .ok zs) : ys = zs := by
  induction xs generalizing ys zs with
  | nil =>
    cases hys
    cases hzs
    rfl
  | cons x rest ih =>
    rw [List.mapM_cons] at hys hzs
    obtain ⟨y, hy, hys⟩ := bind_eq_ok.mp hys
    obtain ⟨ys', hys', hys⟩ := bind_eq_ok.mp hys
    obtain ⟨z, hz, hzs⟩ := bind_eq_ok.mp hzs
    obtain ⟨zs', hzs', hzs⟩ := bind_eq_ok.mp hzs
    cases hys
    cases hzs
    rw [List.forall_mem_cons] at h
    rw [h.1 y z hy hz, ih h.2 hys' hzs']

/-- Trees that differ in spans and spellings only compile to the same texts. -/
theorem outputs_eq_of_stripped_eq {m n : Node} {settings : Settings} {names : Option (List Name)}
    {c c' : Compiled} (h : m.stripped = n.stripped) (hm : m.compile settings names = .ok c)
    (hn : n.compile settings names = .ok c') : c.outputs = c'.outputs := by
  obtain ⟨backends, hbackends, hm⟩ := bind_eq_ok.mp hm
  obtain ⟨backends', hbackends', hn⟩ := bind_eq_ok.mp hn
  cases hbackends.symm.trans hbackends'
  obtain ⟨code, hcode, hm⟩ := bind_eq_ok.mp hm
  obtain ⟨outputs, houtputs, hm⟩ := bind_eq_ok.mp hm
  obtain ⟨code', hcode', hn⟩ := bind_eq_ok.mp hn
  obtain ⟨outputs', houtputs', hn⟩ := bind_eq_ok.mp hn
  cases hm
  cases hn
  refine mapM_eq_mapM (fun b _ p q hp hq => ?_) houtputs houtputs'
  obtain ⟨text, htext, hp⟩ := bind_eq_ok.mp hp
  obtain ⟨text', htext', hq⟩ := bind_eq_ok.mp hq
  cases hp
  cases hq
  rw [Emission.render_eq_of_stripped_eq (Lowering.lower_stripped_eq h hcode hcode') htext htext']

/-- Neither the spans of a tree nor the spellings of its literals reach the generated code. Trees
that differ in both only compile to the same texts where both compile. Trees that differ in spans
only lower alike: both lower, to the same code up to spans and the same listing, or both fail, for
the same reason. -/
theorem generated_code_ignores_spans_and_spellings (m n : Node) :
    (m.stripped = n.stripped → ∀ settings names c c', m.compile settings names = .ok c →
      n.compile settings names = .ok c' → c.outputs = c'.outputs) ∧
    (m.edit .unplaced = n.edit .unplaced → ∀ limits,
      ((∃ code, m.lower limits = .ok code) ↔ ∃ code, n.lower limits = .ok code) ∧
      (∀ e e', m.lower limits = .error e → n.lower limits = .error e' → e.unplaced = e'.unplaced) ∧
      ∀ code code', m.lower limits = .ok code → n.lower limits = .ok code' →
        Instruction.listing code = Instruction.listing code' ∧
        code.map Instruction.unplaced = code'.map Instruction.unplaced) := by
  refine ⟨fun h settings names c c' hm hn => outputs_eq_of_stripped_eq h hm hn, fun h limits => ?_⟩
  have hlower : unplacing (·.map Instruction.unplaced) (m.lower limits) =
      unplacing (·.map Instruction.unplaced) (n.lower limits) := by
    rw [← Lowering.lower_unplacing, ← Lowering.lower_unplacing, h]
  cases hm : m.lower limits with
  | error e =>
    cases hn : n.lower limits with
    | error e' =>
      rw [hm, hn] at hlower
      simpa using hlower
    | ok code' =>
      rw [hm, hn] at hlower
      cases hlower
  | ok code =>
    cases hn : n.lower limits with
    | error e' =>
      rw [hm, hn] at hlower
      cases hlower
    | ok code' =>
      rw [hm, hn] at hlower
      have hcode : code.map Instruction.unplaced = code'.map Instruction.unplaced :=
        Except.ok.inj hlower
      have hlisting : Instruction.listing code = Instruction.listing code' := by
        rw [← listing_unplaced code, ← listing_unplaced code', hcode]
      simpa using ⟨hlisting, hcode⟩

/-- `x = "a"` at a place, with a spelling of the text. -/
def assignsText (loc : Option Location) (raw : String) : Node :=
  .program loc [.expression loc
    (.assignment loc "=" (.identifier loc "x") (.literal loc (.ofString "a") raw))]

/-- The other quotes at another place give the same texts, and the other place alone the same
listing. -/
theorem assignsText_generates_same_code :
    ((assignsText (some ⟨1, 0, 1, 7⟩) "'a'").stripped = (assignsText none "\"a\"").stripped ∧
      ∃ c c', (assignsText (some ⟨1, 0, 1, 7⟩) "'a'").compile {} none = .ok c ∧
        (assignsText none "\"a\"").compile {} none = .ok c' ∧ c.outputs = c'.outputs) ∧
    ((assignsText (some ⟨1, 0, 1, 7⟩) "'a'").edit .unplaced =
        (assignsText none "'a'").edit .unplaced ∧
      ∃ code code', (assignsText (some ⟨1, 0, 1, 7⟩) "'a'").lower {} = .ok code ∧
        (assignsText none "'a'").lower {} = .ok code' ∧
        Instruction.listing code = Instruction.listing code') := by
  have htexts := (generated_code_ignores_spans_and_spellings (assignsText (some ⟨1, 0, 1, 7⟩) "'a'")
    (assignsText none "\"a\"")).1 rfl {} none
  have hcode := ((generated_code_ignores_spans_and_spellings (assignsText (some ⟨1, 0, 1, 7⟩) "'a'")
    (assignsText none "'a'")).2 rfl {}).2.2
  exact ⟨⟨rfl, _, _, rfl, rfl, htexts _ _ rfl rfl⟩, ⟨rfl, _, _, rfl, rfl, (hcode _ _ rfl rfl).1⟩⟩

end Sil
