import Sil.Emission.State

/-!
The emission of a stream, one instruction at a time with one instruction of lookahead. A conditional
jump opens a block, the label that it jumps to closes it, and every other jump or label leaves a
mark. Main definitions: `step` handles one instruction, `run` a stream, `emit` a whole program.
-/
namespace Sil.Emission

open EmissionState

/-- The word for an absent label is the same as for an absent name. -/
def labelText (label : Option String) : String := (Name.ofOption label).shown

def flowError {α : Type} (label : Option String) (reason : FlowReason) : Except Error α :=
  .error (.malformedFlow (labelText label) reason)

def requireSpelling (o : Operand) : Except Error Unit :=
  if o.isSpellable then .ok () else .error (.fault (.digitLimit none))

def noteReads (b : Backend) (s : EmissionState) : List Operand → Except Error EmissionState
  | [] => .ok s
  | o :: rest =>
    match o.name? with
    | none => noteReads b s rest
    | some n =>
      match n.unhashable? with
      | some kind => .error (.fault (.unhashable kind))
      | none => noteReads b (s.noteUse b n b.defaultType) rest

def operandType (s : EmissionState) : Operand → ValueType
  | .const value _ => ValueType.ofValue value
  | .var n => (n.typeIn? s.types).getD .int
  | .temp n => (n.typeIn? s.types).getD .int

def resultType (b : Backend) (s : EmissionState) (i : Instruction) : ValueType :=
  match b, i.opcode with
  | .python, _ => .untyped
  | .cpp, .mov => ((i.operands.map (operandType s)).head?).getD .int
  | .cpp, .binary op =>
    let types := i.operands.map (operandType s)
    if op.isComparison then .bool
    else if op = .add && types.contains .string then .string
    else if types.contains .double then .double
    else .int
  | .cpp, _ => .int

/-- An assignment: its operands are read before its name is written. -/
def assign (b : Backend) (s : EmissionState) (i : Instruction) (source : Source) :
    Except Error EmissionState := do
  let s ← noteReads b s i.operands
  let dest := Name.ofOption i.dest
  let s := s.noteUse b dest (resultType b s i)
  return s.writeStatement (.assign dest source)

/-- The type of a declared name: that of the literal which the next instruction puts into it. -/
def declaredType (name : Option String) (upcoming : Option Instruction) : Except Error ValueType :=
  match upcoming with
  | none => .ok .int
  | some next =>
    if next.opcode = .mov && next.dest == name then
      match next.operands with
      | [] => .error (.fault .missingItem)
      | .const value _ :: _ => .ok (ValueType.ofValue value)
      | _ => .ok .int
    else .ok .int

/-- A declaration. The typed language declares a name once in each block. -/
def declare (b : Backend) (upcoming : Option Instruction) (s : EmissionState) (i : Instruction) :
    Except Error EmissionState := do
  let name := Name.ofOption i.name
  let s := { s with declared := name.addTo s.declared }
  match b with
  | .python =>
    let s := { s with scopes := s.scopes.add s.depth name }
    return s.writeStatement (.declare .untyped name)
  | .cpp =>
    if name.isIn (s.scopes.names s.depth) then return s
    else
      let type ← declaredType i.name upcoming
      let s := { s with types := name.setTypeIn type s.types, scopes := s.scopes.add s.depth name }
      return s.writeStatement (.declare type name)

/-- The two operands of an operation. Each operand is spelled as it is met, up to the first that is
too many. -/
def twoOperands (operands : List Operand) : Except Error (Operand × Operand) := do
  (operands.take 3).forM requireSpelling
  match operands with
  | [left, right] => return (left, right)
  | [] => throw (.fault (.tooFewOperands 0))
  | [_] => throw (.fault (.tooFewOperands 1))
  | _ => throw (.fault .tooManyOperands)

/-- A conditional jump uses the operand that was tested and opens a block. -/
def branch (s : EmissionState) (i : Instruction) (whenFalse : Bool) :
    Except Error EmissionState := do
  match s.tested with
  | none => flowError i.label .jumpWithoutTest
  | some test =>
    if s.definedLabels.contains i.label then flowError i.label .backwardBranch
    requireSpelling test
    let s := { s with
      tested := none
      forwardTargets :=
        if s.forwardTargets.contains i.label then s.forwardTargets
        else s.forwardTargets ++ [i.label] }
    return s.openBlock .branch i.label (.openBranch whenFalse test)

/-- A jump leaves a mark; in front of the label that closes the innermost block it closes it. -/
def jump (b : Backend) (upcoming : Option Instruction) (s : EmissionState) (i : Instruction) :
    EmissionState :=
  let s :=
    if s.definedLabels.contains i.label || s.forwardTargets.contains i.label then s
    else { s with forwardTargets := s.forwardTargets ++ [i.label] }
  let s := s.write (.jumpMark (Name.ofOption i.label))
  match upcoming with
  | some next =>
    if next.opcode = .label && s.closesInnermost next.label then s.closeBlock b else s
  | none => s

/-- A label closes the innermost block if it is that block's, and must be no other open block's. -/
def defineLabel (b : Backend) (s : EmissionState) (i : Instruction) :
    Except Error EmissionState := do
  if s.definedLabels.contains i.label then flowError i.label .labelTwice
  let s ←
    if s.closesInnermost i.label then pure (s.closeBlock b)
    else if s.blocks.any fun block => block.kind == .branch && block.label == i.label then
      flowError i.label .labelCrossesBlock
    else pure s
  let s := { s with
    definedLabels := s.definedLabels ++ [i.label]
    forwardTargets := s.forwardTargets.filter (· != i.label) }
  return s.write (.labelMark (Name.ofOption i.label))

def firstNameless? (params : List (Option String)) : Option Nat :=
  params.findIdx? Option.isNone

def openFunction (b : Backend) (s : EmissionState) : Except Error EmissionState :=
  match s.header with
  | none => .ok s
  | some header =>
    match b, firstNameless? header.params with
    | .python, some index => .error (.fault (.namelessParameter index))
    | _, _ =>
      let params := header.params.map Name.ofOption
      let s := { s with header := none }
      let s := s.openBlock .function header.name
        (.openFunction (Name.ofOption header.name) params)
      .ok { s with
        scopes := ScopeMap.setNames s.depth (params.foldl (fun ns n => n.addTo ns) []) s.scopes }

/-- The effect of one instruction, once nothing else is pending. -/
def perform (b : Backend) (upcoming : Option Instruction) (s : EmissionState) (i : Instruction) :
    Except Error EmissionState := do
  match i.opcode with
  | .decl => declare b upcoming s i
  | .mov =>
    match i.operands with
    | [] => throw (.fault .missingItem)
    | source :: _ =>
      requireSpelling source
      assign b s i (.copy source)
  | .binary op =>
    let (left, right) ← twoOperands i.operands
    assign b s i (.operation op left right)
  | .cmp =>
    let s ← noteReads b s i.operands
    match i.operands with
    | [] => throw (.fault .missingItem)
    | test :: _ => return { s with tested := some test }
  | .jumpIfFalse => branch s i true
  | .jumpIfTrue => branch s i false
  | .jump => return jump b upcoming s i
  | .label => defineLabel b s i
  | .func =>
    if s.inFunction then flowError i.name .functionInFunction
    else return { s with header := some { name := i.name } }
  | .param =>
    match s.header with
    | none => flowError i.name .strayParameter
    | some header =>
      return { s with
        header := some { header with params := header.params ++ [i.name] }
        declared := (Name.ofOption i.name).addTo s.declared }
  | .endFunc =>
    match s.blocks with
    | [] => throw (.malformedFlow "endfunc" .noOpenFunction)
    | block :: _ =>
      if block.kind = .function then return s.closeBlock b
      else flowError block.label .blockInFunctionEnd
  | .ret =>
    let s ← noteReads b s i.operands
    match i.operands with
    | [] => return s.writeStatement (.ret none s.inFunction)
    | value :: _ =>
      requireSpelling value
      return s.writeStatement (.ret (some value) s.inFunction)

/-- One instruction, with the one after it in view. -/
def step (b : Backend) (upcoming : Option Instruction) (s : EmissionState) (i : Instruction) :
    Except Error EmissionState := do
  let s ← if i.opcode = .param then pure s else openFunction b s
  match s.tested with
  | some test =>
    if i.opcode.isConditionalJump then pure ()
    else if test.isWritable then throw (.malformedFlow test.text .testNotUsed)
    else throw (.fault (.digitLimit none))
  | none => pure ()
  let s ← perform b upcoming s i
  return { s with depthTrace := s.depthTrace ++ [s.depth] }

def run (b : Backend) : EmissionState → List Instruction → Except Error EmissionState
  | s, [] => .ok s
  | s, i :: rest => do
    let s ← step b rest.head? s i
    run b s rest

/-- The least of some labels; absent ones and names have no common order. -/
def leastLabel (labels : List (Option String)) : Except Error (Option String) :=
  match labels.filterMap id with
  | [] => .ok none
  | l :: rest =>
    if labels.contains none then .error (.fault .incomparableLabels)
    else .ok (some (rest.foldl (fun m x => if x < m then x else m) l))

/-- The checks after the last instruction: every block is closed and every jump has its label. -/
def finish (b : Backend) (s : EmissionState) : Except Error EmissionState := do
  let s ← openFunction b s
  match s.blocks with
  | block :: _ => flowError block.label (.neverClosed block.kind)
  | [] =>
    if s.forwardTargets.isEmpty then return s
    else flowError (← leastLabel s.forwardTargets) .undefinedLabel

def emit (b : Backend) (is : List Instruction) : Except Error EmissionState := do
  finish b (← run b (initial b) is)

end Sil.Emission
