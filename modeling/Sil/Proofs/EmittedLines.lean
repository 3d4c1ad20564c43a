import Mathlib
import Sil.Proofs.DeclaredPositions
import Sil.Proofs.Indentation

/-!
The lines of an emission, position by position. Fillers aside, an accepted stream writes the lines
of its instructions in their order, each as deep as there are branches and functions around its
position; the typed text closes whatever ends at a position right before the line of this position,
the innermost first. The emission itself closes a branch one instruction early when a jump stands in
front of its label, and writes the line of a function only after its parameters.
-/
namespace Sil

namespace Content

/-- A line that an instruction has for itself: it neither fills nor closes a block. -/
def isOwn : Content → Bool
  | .filler | .close _ => false
  | _ => true

end Content

namespace Streams

variable (b : Backend) (is : List Instruction)

def testBefore? : Nat → Option Operand
  | 0 => none
  | k + 1 => is[k]?.bind fun i => if i.opcode = .cmp then i.operands.head? else none

def paramsAfter (k : Nat) : List Name :=
  ((is.drop (k + 1)).takeWhile (·.opcode == .param)).map fun i => Name.ofOption i.name

def contentAt (k : Nat) (i : Instruction) : Option Content :=
  match i.opcode with
  | .decl =>
    match b with
    | .python => some (.declare .untyped (Name.ofOption i.name))
    | .cpp =>
      (Emission.declaredType i.name is[k + 1]?).toOption.map (.declare · (Name.ofOption i.name))
  | .mov => i.operands.head?.map fun source => .assign (Name.ofOption i.dest) (.copy source)
  | .binary op =>
    match i.operands with
    | [left, right] => some (.assign (Name.ofOption i.dest) (.operation op left right))
    | _ => none
  | .jumpIfFalse | .jumpIfTrue => (testBefore? is k).map (.openBranch (i.opcode == .jumpIfFalse))
  | .jump => some (.jumpMark (Name.ofOption i.label))
  | .label => some (.labelMark (Name.ofOption i.label))
  | .func => some (.openFunction (Name.ofOption i.name) (paramsAfter is k))
  | .ret => some (.ret i.operands.head? (decide (functionsAround is k).Nonempty))
  | .cmp | .param | .endFunc => none

/-- The depth of a line: the base depth, one for each branch and one for each function around it. -/
def depthAt (k : Nat) : Nat :=
  b.baseDepth + (branchesAround is k).card + (functionsAround is k).card

def lineAt (k : Nat) : Option Line :=
  is[k]?.bind fun i => (contentAt b is k i).map fun content => ⟨depthAt b is k, content⟩

/-- Whether the instruction at a position has a line of its own. A test shares that of its jump, a
parameter that of its function, and the typed text does not declare a name again. -/
def writesLine (k : Nat) : Bool :=
  is[k]?.any fun i =>
    match i.opcode with
    | .decl => b == .python || !redeclares is k (Name.ofOption i.name)
    | .mov | .binary _ | .jumpIfFalse | .jumpIfTrue | .jump | .label | .func | .ret => true
    | .cmp | .param | .endFunc => false

/-- The line that closes the block which the instruction at a position opens, as deep as its
opener. -/
def closingLine (k : Nat) : Line := ⟨depthAt b is k, .close (frame is k).1⟩

def closingLines (stack : List Nat) : List (Option Line) :=
  match b with
  | .python => []
  | .cpp => stack.map fun p => some (closingLine .cpp is p)

def ownLines (k : Nat) : List (Option Line) := if writesLine b is k then [lineAt b is k] else []

/-- The lines of the first positions: each has the closing lines of what ends there, and then its
own. -/
def listing (n : Nat) : List (Option Line) :=
  (List.range n).flatMap fun k => closingLines b is (ending is k) ++ ownLines b is k

/-- The lines that are written before a position: what a jump closes early belongs to the label
after it. -/
def listed (k : Nat) : List (Option Line) := listing b is k ++ closingLines b is (closedEarly is k)

def written (k : Nat) : List (Option Line) :=
  if OpAt is k .jump then ownLines b is k ++ closingLines b is (popped is k)
  else closingLines b is (popped is k) ++ ownLines b is k

variable {b} {is} {k p : Nat} {i : Instruction}

@[simp] theorem closingLines_nil : closingLines b is [] = [] := by
  cases b <;> rfl

@[simp] theorem closingLines_append (stack stack' : List Nat) :
    closingLines b is (stack ++ stack') = closingLines b is stack ++ closingLines b is stack' := by
  cases b <;> simp [closingLines]

theorem listing_succ :
    listing b is (k + 1) =
      listing b is k ++ closingLines b is (ending is k) ++ ownLines b is k := by
  rw [listing, List.range_succ, List.flatMap_append, List.flatMap_singleton, ← List.append_assoc]
  rfl

theorem Bracketed.closedEarly_eq_nil (h : Bracketed is) (hlabel : ¬ OpAt is k .label)
    (hend : ¬ OpAt is k .endFunc) : closedEarly is k = [] := by
  rw [List.eq_nil_iff_forall_not_mem]
  intro p hp
  obtain hlast | hlast := (h.span_of_mem_closedEarly hp).opAt_end
  · exact hlabel hlast
  · exact hend hlast

/-- One position after the other: what was closed early is made up for at the label. -/
theorem Bracketed.listed_succ (h : Bracketed is) :
    listed b is (k + 1) = listed b is k ++ written b is k := by
  rw [listed, listing_succ, listed, written, closedEarly]
  split
  · rename_i hjump
    have hlabel : ¬ OpAt is k .label := fun hlabel => by cases opAt_unique hjump hlabel
    have hend : ¬ OpAt is k .endFunc := fun hend => by cases opAt_unique hjump hend
    rw [ending_eq_nil hlabel hend, h.closedEarly_eq_nil hlabel hend]
    simp
  · rename_i hjump
    rw [h.ending_eq hjump]
    simp

theorem Bracketed.listed_length (h : Bracketed is) :
    listed b is is.length = listing b is is.length := by
  have hlast (op : Opcode) : ¬ OpAt is is.length op := fun hop => by
    have := hop.lt_length
    omega
  rw [listed, h.closedEarly_eq_nil (hlast .label) (hlast .endFunc)]
  simp

/-- Where nothing is closed only the instruction's own line is written. -/
theorem written_of_subset (h : openBefore is k ⊆ openBefore is (k + 1)) :
    written b is k = ownLines b is k := by
  rw [written, popped_of_subset h]
  simp

theorem ownLines_of_content {content : Content} (hi : is[k]? = some i) (hw : writesLine b is k)
    (hc : contentAt b is k i = some content) :
    ownLines b is k = [some ⟨depthAt b is k, content⟩] := by
  rw [ownLines, if_pos hw, lineAt, hi, Option.bind_some, hc]
  rfl

theorem ownLines_of_silent (h : writesLine b is k = false) : ownLines b is k = [] := by
  rw [ownLines, h]
  rfl

/-- The depth of a line is that of the positions that are open there. -/
theorem Bracketed.depthAt_eq (h : Bracketed is) (hk : k < is.length) (hend : ¬ OpAt is k .endFunc) :
    depthAt b is k = b.baseDepth + (enclosing is k).length := by
  rw [depthAt, ← h.card_around hk hend, card_around_eq_add, Nat.add_assoc]

theorem Opens.lt_length (h : Opens is k) : k < is.length := by
  obtain hfunc | ⟨label, i, hi, -⟩ := h
  · exact hfunc.lt_length
  · exact (List.getElem?_eq_some_iff.mp hi).1

theorem Opens.not_opAt (h : Opens is k) : ¬ OpAt is k .label ∧ ¬ OpAt is k .endFunc := by
  constructor
  · rintro ⟨i, hi, ho⟩
    exact not_opens_of_definesAt ⟨i, hi, ho, rfl⟩ h
  · intro hend
    obtain hfunc | ⟨label, i, hi, hb, -⟩ := h
    · cases opAt_unique hend hfunc
    · rw [opAt_iff hi] at hend
      rw [hend] at hb
      cases hb

theorem Bracketed.depthAt_of_opens (h : Bracketed is) (hp : Opens is p) :
    depthAt b is p = b.baseDepth + (openBefore is p).length := by
  rw [h.depthAt_eq hp.lt_length hp.not_opAt.2, enclosing_of_not_label hp.not_opAt.1]

/-- The line of a label stands outside of what it closes. -/
theorem Bracketed.ownLines_of_label (h : Bracketed is) (hi : is[k]? = some i)
    (ho : i.opcode = .label) :
    ownLines b is k =
      [some ⟨b.baseDepth + (openBefore is (k + 1)).length,
        .labelMark (Name.ofOption i.label)⟩] := by
  have hend : ¬ OpAt is k .endFunc := by simp [opAt_iff hi, ho]
  have hdepth := h.depthAt_eq (b := b) (List.getElem?_eq_some_iff.mp hi).1 hend
  rw [enclosing, if_pos ((opAt_iff hi).mpr ho)] at hdepth
  rw [ownLines_of_content hi (by simp [writesLine, hi, ho]) (by simp [contentAt, ho]; rfl), hdepth]

/-- Parameters write nothing. -/
theorem Bracketed.listed_of_params {f : Nat} (h : Bracketed is) (hfk : f < k)
    (hparams : ∀ m, f < m → m < k → OpAt is m .param) : listed b is k = listed b is (f + 1) := by
  induction k, hfk using Nat.le_induction with
  | base => rfl
  | succ m hm ih =>
    obtain ⟨i, hi, ho⟩ := hparams m hm (by omega)
    have hopen : openBefore is (m + 1) = openBefore is m := by simp [openBefore_succ hi, shift, ho]
    have hnone : written b is m = [] := by
      rw [written_of_subset (by rw [hopen]; exact List.Subset.refl _)]
      exact ownLines_of_silent (by simp [writesLine, hi, ho])
    rw [h.listed_succ, hnone, List.append_nil]
    exact ih fun j hj hjm => hparams j hj (by omega)

theorem take_succ_drop {f : Nat} (hi : is[k]? = some i) (hfk : f < k) :
    (is.take (k + 1)).drop (f + 1) = (is.take k).drop (f + 1) ++ [i] := by
  have hk : k < is.length := (List.getElem?_eq_some_iff.mp hi).1
  rw [List.take_add_one, hi, Option.toList_some, List.drop_append_of_le_length (by simp; omega)]

/-- The parameters after a function are those up to the next other instruction. -/
theorem paramsAfter_eq {f : Nat} (hfk : f < k) (hk : k ≤ is.length)
    (hparams : ∀ i ∈ (is.take k).drop (f + 1), i.opcode = .param) (hlast : ¬ OpAt is k .param) :
    paramsAfter is f = ((is.take k).drop (f + 1)).map fun i => Name.ofOption i.name := by
  have hsplit : is.drop (f + 1) = (is.take k).drop (f + 1) ++ is.drop k := by
    rw [← List.drop_append_of_le_length (by simp; omega), List.take_append_drop]
  have hrest : (is.drop k).takeWhile (·.opcode == .param) = [] := by
    cases hdrop : is.drop k with
    | nil => rfl
    | cons j rest =>
      have hj : is[k]? = some j := by
        rw [← List.head?_drop, hdrop]
        rfl
      rw [opAt_iff hj] at hlast
      exact List.takeWhile_cons_of_neg (by simpa using hlast)
  rw [paramsAfter, hsplit, List.takeWhile_append_of_pos (by simpa using hparams), hrest,
    List.append_nil]

end Streams

namespace EmissionState
open Streams

variable {b : Backend} {s : EmissionState} {is : List Instruction} {k p : Nat}

/-- The lines without the fillers of a language that has them. -/
def keptLines (b : Backend) (s : EmissionState) : List (Option Line) :=
  (s.lines.filter fun l => !(b.fillsEmptyBlocks && l.content.isFiller)).map some

theorem keptLines_write {content : Content} (hc : content.isFiller = false) :
    (s.write content).keptLines b = s.keptLines b ++ [some ⟨s.depth, content⟩] := by
  simp [keptLines, write, hc]

theorem keptLines_writeStatement {t : EmissionState} {content : Content}
    (hc : content.isFiller = false) (hlines : t.keptLines b = s.keptLines b)
    (hdepth : t.depth = s.depth) :
    (t.writeStatement content).keptLines b = s.keptLines b ++ [some ⟨s.depth, content⟩] := by
  rw [← hlines, ← hdepth]
  exact keptLines_write hc

theorem depth_noteUse (n : Name) (type : ValueType) : (s.noteUse b n type).depth = s.depth := by
  unfold noteUse
  split <;> rfl

theorem keptLines_noteUse (n : Name) (type : ValueType) :
    (s.noteUse b n type).keptLines b = s.keptLines b := by
  unfold noteUse
  split <;> rfl

/-- A closed block leaves its closing line, as deep as its opener. -/
theorem keptLines_closeBlock {block : Block} {rest : List Block} (h : s.blocks = block :: rest)
    (hkind : block.kind = (frame is p).1) (hdepth : block.depth = depthAt b is p) :
    (s.closeBlock b).keptLines b = s.keptLines b ++ closingLines b is [p] := by
  cases b with
  | python =>
    unfold closeBlock
    rw [h]
    cases hs : block.hasStatement <;>
      simp [keptLines, closingLines, Backend.fillsEmptyBlocks, Backend.closer, write,
        Content.isFiller, hs]
  | cpp =>
    rw [closeBlock_cpp h]
    simp [keptLines, closingLines, closingLine, Backend.fillsEmptyBlocks, hkind, hdepth]

/-- Closing the innermost block writes the closing line of the position that is taken off. -/
theorem keptLines_closeInnermost (hB : Bracketed is) (hn : s.IsNested b)
    (hb : s.control.blocks = (openBefore is k).map (frame is))
    (hopen : openBefore is k = p :: openBefore is (k + 1)) :
    (s.closeBlock b).keptLines b = s.keptLines b ++ closingLines b is (popped is k) ∧
      (s.closeBlock b).depth = b.baseDepth + (openBefore is (k + 1)).length := by
  obtain ⟨block, rest, heq, hkind, hdepth⟩ := hn.exists_block (hopen ▸ hb)
  have hopens : Opens is p := opens_of_mem_openBefore p (hopen ▸ List.mem_cons_self)
  have hsuffix : openBefore is k = [] ++ p :: openBefore is (k + 1) := hopen
  have houter : openBefore is (k + 1) = openBefore is p := openBefore_of_suffix hsuffix
  constructor
  · rw [popped_of_cons hopen]
    apply keptLines_closeBlock heq hkind
    rw [hdepth, houter, hB.depthAt_of_opens hopens]
  · rw [← hdepth, closeBlock, heq]
    dsimp only
    split <;> rfl

end EmissionState

namespace Emission
open EmissionState Streams

variable {b : Backend} {s s' t u : EmissionState} {i : Instruction} {is : List Instruction}
  {k : Nat} {upcoming : Option Instruction}

theorem keptLines_noteReads {operands : List Operand} (h : noteReads b s operands = .ok t) :
    t.keptLines b = s.keptLines b :=
  noteReads_frame (fun _ n type => keptLines_noteUse n type) h

theorem depth_noteReads {operands : List Operand} (h : noteReads b s operands = .ok t) :
    t.depth = s.depth :=
  noteReads_frame (fun _ n type => depth_noteUse n type) h

/-- Whether a function is open is whether one lies around the position. -/
theorem inFunction_eq_decide (hB : Bracketed is) (hi : is[k]? = some i) (ho : i.opcode = .ret)
    (hb : t.control.blocks = (openBefore is k).map (frame is)) :
    t.inFunction = decide (functionsAround is k).Nonempty := by
  have hk : k < is.length := (List.getElem?_eq_some_iff.mp hi).1
  have hlabel : ¬ OpAt is k .label := by simp [opAt_iff hi, ho]
  have hend : ¬ OpAt is k .endFunc := by simp [opAt_iff hi, ho]
  have hmem (p : Nat) := hB.mem_enclosing_iff (p := p) hk hend
  rw [enclosing_of_not_label hlabel] at hmem
  rw [inFunction_eq, hb, Bool.eq_iff_iff, decide_eq_true_eq, List.any_map, List.any_eq_true]
  constructor
  · rintro ⟨p, hp, hkind⟩
    have hfunc := (opens_of_mem_openBefore p hp).func_of_frame (by simpa using hkind)
    obtain ⟨q, hs⟩ := (hmem p).mp hp
    obtain ⟨hspan, hbounds⟩ := mem_around.mp hs
    exact ⟨(p, q), mem_functionsAround.mpr ⟨hspan.function hfunc, hbounds⟩⟩
  · rintro ⟨⟨p, q⟩, hs⟩
    obtain ⟨hspan, hbounds⟩ := mem_functionsAround.mp hs
    refine ⟨p, (hmem p).mpr ⟨q, mem_around.mpr ⟨.inr hspan, hbounds⟩⟩, ?_⟩
    simp [frame_of_func hspan.1]

/-- A state that is about to write the instruction at a position: the open blocks are the open
positions, the operand that waits for its jump is that of the instruction before, and the scope map
finds what the block declares. -/
structure Ready (b : Backend) (is : List Instruction) (k : Nat) (i : Instruction)
    (t : EmissionState) : Prop where
  nested : t.IsNested b
  blocks : t.control.blocks = (openBefore is k).map (frame is)
  tested : t.tested = testBefore? is k
  declared : b = .cpp → i.opcode = .decl →
    ∀ n : Name, n.isIn (t.scopes.names t.depth) = redeclares is k n

/-- The line of an instruction that is no label stands at the current depth. -/
theorem Ready.own_line {content : Content} (h : Ready b is k i t) (hB : Bracketed is)
    (hi : is[k]? = some i) (hlabel : i.opcode ≠ .label) (hend : i.opcode ≠ .endFunc)
    (hw : writesLine b is k) (hc : contentAt b is k i = some content) :
    ownLines b is k = [some ⟨t.depth, content⟩] := by
  have hdepth : depthAt b is k = t.depth := by
    rw [hB.depthAt_eq (List.getElem?_eq_some_iff.mp hi).1 (by simpa [opAt_iff hi] using hend),
      enclosing_of_not_label (by simpa [opAt_iff hi] using hlabel), h.nested.depth_eq h.blocks]
  rw [ownLines_of_content hi hw hc, hdepth]

/-- Everything that an instruction writes is the line of its position and the closing lines of what
it takes off. -/
theorem Performs.keptLines (h : Performs b is[k + 1]? t i u) (ht : Ready b is k i t)
    (hB : Bracketed is) (hi : is[k]? = some i) (hfunc : i.opcode ≠ .func)
    (hparam : i.opcode ≠ .param) :
    u.keptLines b = t.keptLines b ++ written b is k := by
  have hsame (hshift : shift is k i (openBefore is k) = openBefore is k) :
      written b is k = ownLines b is k := by
    apply written_of_subset
    rw [openBefore_succ hi, hshift]
    exact List.Subset.refl _
  have hother (hjump : i.opcode ≠ .jump) :
      written b is k = closingLines b is (popped is k) ++ ownLines b is k := by
    rw [written, if_neg (by simpa [opAt_iff hi] using hjump)]
  cases h with
  | declareUntyped hb ho =>
    subst hb
    rw [hsame (by simp [shift, ho]), ht.own_line hB hi (by simp [ho]) (by simp [ho])
      (by simp [writesLine, hi, ho]) (by simp [contentAt, ho]; rfl)]
    exact keptLines_writeStatement rfl rfl rfl
  | @declareTyped type hb ho hnew htype =>
    subst hb
    have hw : writesLine .cpp is k := by
      rw [ht.declared rfl ho] at hnew
      simp [writesLine, hi, ho, hnew]
    have hc : contentAt .cpp is k i = some (.declare type (Name.ofOption i.name)) := by
      simp [contentAt, ho, htype, Except.toOption]
    rw [hsame (by simp [shift, ho]), ht.own_line hB hi (by simp [ho]) (by simp [ho]) hw hc]
    exact keptLines_writeStatement rfl rfl rfl
  | declareAgain hb ho hold =>
    subst hb
    have hw : writesLine .cpp is k = false := by
      rw [ht.declared rfl ho] at hold
      simp [writesLine, hi, ho, hold]
    rw [hsame (by simp [shift, ho]), ownLines_of_silent hw, List.append_nil]
    rfl
  | mov ho hsource hreads | binary ho hsource hreads =>
    rw [hsame (by simp [shift, ho]), ht.own_line hB hi (by simp [ho]) (by simp [ho])
      (by simp [writesLine, hi, ho]) (by simp [contentAt, ho, hsource]; rfl)]
    apply keptLines_writeStatement rfl
    · rw [keptLines_noteUse, keptLines_noteReads hreads]
    · rw [depth_noteUse, depth_noteReads hreads]
  | cmp ho _ hreads =>
    rw [hsame (by simp [shift, ho]), ownLines_of_silent (by simp [writesLine, hi, ho]),
      List.append_nil, ← keptLines_noteReads hreads]
    rfl
  | @branch test ho htest =>
    have hopens : Opens is k := .inr ⟨i.label, i, hi, ho, rfl⟩
    have hpush : openBefore is k ⊆ openBefore is (k + 1) := by
      rw [openBefore_opens hopens]
      exact List.subset_cons_self _ _
    obtain ⟨hw, hc⟩ : writesLine b is k ∧
        contentAt b is k i = some (.openBranch (i.opcode == .jumpIfFalse) test) := by
      rw [ht.tested] at htest
      cases hop : i.opcode <;> simp_all [writesLine, contentAt, Opcode.isConditionalJump]
    rw [written_of_subset hpush,
      ht.own_line hB hi (ne_of_isConditionalJump ho rfl) (ne_of_isConditionalJump ho rfl) hw hc]
    exact keptLines_writeStatement rfl rfl rfl
  | jump ho hopen =>
    have hkeep : openBefore is k ⊆ openBefore is (k + 1) := by
      rw [openBefore_jump hi ho ht.blocks, hopen]
      exact List.Subset.refl _
    rw [written_of_subset hkeep, ht.own_line hB hi (by simp [ho]) (by simp [ho])
      (by simp [writesLine, hi, ho]) (by simp [contentAt, ho]; rfl)]
    exact keptLines_write rfl
  | jumpClosing ho hclose =>
    obtain ⟨p, hopen⟩ := openBefore_closeEarly ht.blocks hi ho hclose
    have hclosed := (keptLines_closeInnermost hB
      (s := (awaitLabel t i.label).write (.jumpMark (Name.ofOption i.label)))
      ht.nested ht.blocks hopen).1
    have hmarked : ((awaitLabel t i.label).write (.jumpMark (Name.ofOption i.label))).keptLines b =
        t.keptLines b ++ [some ⟨t.depth, .jumpMark (Name.ofOption i.label)⟩] := keptLines_write rfl
    rw [written, if_pos ((opAt_iff hi).mpr ho), ht.own_line hB hi (by simp [ho]) (by simp [ho])
      (by simp [writesLine, hi, ho]) (by simp [contentAt, ho]; rfl), hclosed, hmarked,
      List.append_assoc]
  | label ho _ hopen =>
    have hkeep := openBefore_meet ht.blocks hi ho hopen
    rw [written_of_subset (by rw [hkeep]; exact List.Subset.refl _), hB.ownLines_of_label hi ho,
      hkeep, ← ht.nested.depth_eq ht.blocks]
    exact keptLines_write rfl
  | labelClosing ho _ hclose =>
    obtain ⟨p, hopen⟩ := openBefore_close ht.blocks hi ho hclose
    obtain ⟨hclosed, hdepth⟩ := keptLines_closeInnermost hB ht.nested ht.blocks hopen
    rw [hother (by simp [ho]), hB.ownLines_of_label hi ho, ← hdepth, ← List.append_assoc, ← hclosed]
    exact keptLines_write rfl
  | func ho => exact absurd ho hfunc
  | param ho => exact absurd ho hparam
  | endFunc ho hblocks =>
    have hne : t.control.blocks ≠ [] := by simp [EmissionState.control, hblocks]
    obtain ⟨p, hopen⟩ := openBefore_leave ht.blocks hi ho hne
    rw [hother (by simp [ho]), ownLines_of_silent (by simp [writesLine, hi, ho]), List.append_nil]
    exact (keptLines_closeInnermost hB ht.nested ht.blocks hopen).1
  | @ret r ho hreads =>
    have hflag : r.inFunction = decide (functionsAround is k).Nonempty := by
      refine inFunction_eq_decide hB hi ho ?_
      rw [control_noteReads hreads]
      exact ht.blocks
    rw [hsame (by simp [shift, ho]), ht.own_line hB hi (by simp [ho]) (by simp [ho])
      (by simp [writesLine, hi, ho]) (by simp [contentAt, ho]; rfl), ← hflag]
    exact keptLines_writeStatement rfl (keptLines_noteReads hreads) (depth_noteReads hreads)

/-- A function whose line is still to be written: `f` starts it, and what follows lists its
parameters. -/
structure Pending (b : Backend) (is : List Instruction) (k : Nat) (s : EmissionState) (f : Nat)
    (header : Header) : Prop where
  before : f < k
  start : ∃ i, is[f]? = some i ∧ i.opcode = .func ∧ i.name = header.name
  names : header.params = ((is.take k).drop (f + 1)).map (·.name)
  params : ∀ i ∈ (is.take k).drop (f + 1), i.opcode = .param
  lines : s.keptLines b = listed b is f
  depth : s.depth = b.baseDepth + (openBefore is f).length

/-- The line of a pending function is that of its start. -/
theorem Pending.listed_eq {f : Nat} {header : Header} (h : Pending b is k s f header)
    (hB : Bracketed is) (hk : k ≤ is.length) (hlast : ¬ OpAt is k .param) :
    s.keptLines b ++ [some ⟨s.depth, .openFunction (Name.ofOption header.name)
      (header.params.map Name.ofOption)⟩] = listed b is k := by
  obtain ⟨i, hi, ho, hname⟩ := h.start
  have hopens : Opens is f := .inl ⟨i, hi, ho⟩
  have hparams (m : Nat) (hfm : f < m) (hmk : m < k) : OpAt is m .param := by
    have hm : is[m]? = some is[m] := List.getElem?_eq_getElem (by omega)
    refine ⟨is[m], hm, h.params _ (List.mem_of_getElem? (i := m - (f + 1)) ?_)⟩
    rw [List.getElem?_drop, Nat.add_sub_cancel' hfm, List.getElem?_take_of_lt hmk, hm]
  have hpush : openBefore is f ⊆ openBefore is (f + 1) := by
    rw [openBefore_opens hopens]
    exact List.subset_cons_self _ _
  have hcontent : contentAt b is f i =
      some (.openFunction (Name.ofOption header.name) (header.params.map Name.ofOption)) := by
    simp [contentAt, ho, hname, paramsAfter_eq h.before hk h.params hlast, h.names,
      Function.comp_def]
  rw [hB.listed_of_params h.before hparams, hB.listed_succ, written_of_subset hpush,
    ownLines_of_content hi (by simp [writesLine, hi, ho]) hcontent, h.lines, h.depth,
    hB.depthAt_of_opens hopens]

structure Writes (b : Backend) (is : List Instruction) (k : Nat) (s : EmissionState) : Prop where
  reached : after b (initial b) is k = .ok s
  nested : s.IsNested b
  tested : s.tested = testBefore? is k
  idle : s.header = none → s.keptLines b = listed b is k
  pending : ∀ header, s.header = some header → ∃ f, Pending b is k s f header

theorem writes_initial : Writes b is 0 (initial b) where
  reached := after_zero
  nested := rfl
  tested := rfl
  idle _ := by
    rw [listed, closedEarly, closingLines_nil]
    rfl
  pending header h := by cases h

/-- Once no function is pending everything before the position is written. -/
theorem Writes.keptLines_eq (h : Writes b is k s) (hB : Bracketed is) (hk : k ≤ is.length)
    (hlast : ¬ OpAt is k .param) (henters : Enters s t) : t.keptLines b = listed b is k := by
  cases henters with
  | nothing hnone => exact h.idle hnone
  | @function header hsome =>
    obtain ⟨f, hf⟩ := h.pending header hsome
    rw [← hf.listed_eq hB hk hlast]
    exact keptLines_writeStatement rfl rfl rfl

theorem Writes.ready (h : Writes b is k s) (hB : Bracketed is) (hi : is[k]? = some i)
    (henters : Enters s t) : Ready b is k i t where
  nested := henters.isNested h.nested
  blocks := henters.control_eq ▸ blocks_after (List.getElem?_eq_some_iff.mp hi).1.le h.reached
  tested := by
    rw [← h.tested]
    cases henters <;> rfl
  declared hb ho n := by
    subst hb
    exact isIn_names_eq_redeclares hB hi ho h.reached henters n

/-- A parameter adds its name to the pending function. -/
theorem Pending.param {f : Nat} {header : Header} (h : Pending b is k s f header)
    (hi : is[k]? = some i) (ho : i.opcode = .param) (hlines : t.keptLines b = s.keptLines b)
    (hdepth : t.depth = s.depth) :
    Pending b is (k + 1) t f { header with params := header.params ++ [i.name] } where
  before := by
    have := h.before
    omega
  start := h.start
  names := by
    rw [take_succ_drop hi h.before, List.map_append, ← h.names]
    rfl
  params j hj := by
    rw [take_succ_drop hi h.before] at hj
    obtain hj | hj := List.mem_append.mp hj
    · exact h.params j hj
    · rwa [List.mem_singleton.mp hj]
  lines := hlines.trans h.lines
  depth := hdepth.trans h.depth

/-- Every instruction writes its lines, or its function stays pending. -/
theorem writes_step (hB : Bracketed is) (hi : is[k]? = some i) (hs : Writes b is k s)
    (h : step b is[k + 1]? s i = .ok s') : Writes b is (k + 1) s' := by
  have hk : k < is.length := (List.getElem?_eq_some_iff.mp hi).1
  have hreached : after b (initial b) is (k + 1) = .ok s' := by
    rw [after_succ hi, hs.reached]
    exact h
  have htested : s'.tested = testBefore? is (k + 1) := by
    rw [testBefore?, hi]
    exact moves_tested_eq (step_moves h)
  have hnested := isNested_step h hs.nested
  obtain ⟨t, u, henter, -, hperforms, rfl⟩ := step_cases h
  rcases henter with ⟨hparam, rfl⟩ | ⟨hparam, henters⟩
  · obtain ⟨header, hheader, rfl⟩ := hperforms.of_param hparam
    obtain ⟨f, hf⟩ := hs.pending header hheader
    refine ⟨hreached, hnested, htested, ?_, ?_⟩
    · intro hnone
      cases hnone
    · intro header' hheader'
      cases hheader'
      exact ⟨f, hf.param hi hparam rfl rfl⟩
  · have hready := hs.ready hB hi henters
    have hlines := hs.keptLines_eq hB hk.le (by simpa [opAt_iff hi] using hparam) henters
    by_cases hfunc : i.opcode = .func
    · obtain rfl := hperforms.of_func hfunc
      refine ⟨hreached, hnested, htested, ?_, ?_⟩
      · intro hnone
        cases hnone
      · intro header hheader
        cases hheader
        have hnone : (is.take (k + 1)).drop (k + 1) = [] := List.drop_eq_nil_of_le (by simp)
        have hdepth := hready.nested.depth_eq hready.blocks
        exact ⟨k, by omega, ⟨i, hi, hfunc, rfl⟩, by rw [hnone]; rfl, by simp [hnone], hlines,
          hdepth⟩
    · have hheader : u.header = none :=
        (hperforms.header_eq hfunc hparam).trans henters.header_eq_none
      refine ⟨hreached, hnested, htested, fun _ => ?_, fun header hsome => ?_⟩
      · rw [hB.listed_succ, ← hlines]
        exact hperforms.keptLines hready hB hi hfunc hparam
      · cases hheader.symm.trans hsome

theorem keptLines_of_emit (h : emit b is = .ok s) : s.keptLines b = listing b is is.length := by
  have hB := bracketed_of_emit h
  obtain ⟨hafter, hheader⟩ := after_length_of_emit h
  have hwrites : Writes b is is.length s :=
    after_invariant (P := Writes b is) writes_initial
      (fun _ _ _ _ hi hs hstep => writes_step hB hi hs hstep) le_rfl hafter
  rw [hwrites.idle hheader, hB.listed_length]

end Emission

namespace Streams

variable {b : Backend} {is : List Instruction} {k : Nat} {l : Line}

theorem lineAt_isOwn (h : lineAt b is k = some l) : l.content.isOwn := by
  obtain ⟨i, -, h⟩ := Option.bind_eq_some_iff.mp h
  obtain ⟨content, hc, rfl⟩ := Option.map_eq_some_iff.mp h
  unfold contentAt at hc
  cases ho : i.opcode with
  | decl =>
    rw [ho] at hc
    cases b with
    | python =>
      cases hc
      rfl
    | cpp =>
      obtain ⟨type, -, rfl⟩ := Option.map_eq_some_iff.mp hc
      rfl
  | mov | jumpIfFalse | jumpIfTrue =>
    rw [ho] at hc
    obtain ⟨o, -, rfl⟩ := Option.map_eq_some_iff.mp hc
    rfl
  | binary op =>
    rw [ho] at hc
    dsimp only at hc
    split at hc
    · cases hc
      rfl
    · cases hc
  | cmp | param | endFunc =>
    rw [ho] at hc
    cases hc
  | jump | label | func | ret =>
    rw [ho] at hc
    cases hc
    rfl

theorem flatMap_ownLines (positions : List Nat) :
    positions.flatMap (ownLines b is) = (positions.filter (writesLine b is)).map (lineAt b is) := by
  induction positions with
  | nil => rfl
  | cons k rest ih =>
    rw [List.flatMap_cons, List.filter_cons, ih, ownLines]
    split <;> rfl

/-- Setting the closing lines aside leaves the instructions' own lines. -/
theorem filter_listing {n : Nat} (h : ∀ line ∈ listing b is n, line.isSome) :
    ((listing b is n).filter fun line => line.any (·.content.isOwn)) =
      ((List.range n).filter (writesLine b is)).map (lineAt b is) := by
  rw [← flatMap_ownLines, listing, List.filter_flatMap]
  refine List.flatMap_congr fun k hk => ?_
  have hclosing : (closingLines b is (ending is k)).filter (·.any (·.content.isOwn)) = [] := by
    cases b <;> simp [closingLines, closingLine, Content.isOwn]
  have hown : (ownLines b is k).filter (·.any (·.content.isOwn)) = ownLines b is k := by
    apply List.filter_eq_self.mpr
    intro line hline
    have hmem : line ∈ listing b is n :=
      List.mem_flatMap.mpr ⟨k, hk, List.mem_append_right _ hline⟩
    obtain ⟨l, rfl⟩ := Option.isSome_iff_exists.mp (h line hmem)
    have hl : lineAt b is k = some l := by
      rw [ownLines] at hline
      split at hline
      · exact (List.mem_singleton.mp hline).symm
      · cases hline
    exact lineAt_isOwn hl
  rw [List.filter_append, hclosing, hown, List.nil_append]

end Streams

namespace EmissionState

variable {b : Backend} {s : EmissionState}

def instructionLines (s : EmissionState) : List Line := s.lines.filter (·.content.isOwn)

theorem filter_keptLines :
    ((s.keptLines b).filter fun line => line.any (·.content.isOwn)) =
      s.instructionLines.map some := by
  rw [keptLines, instructionLines, List.filter_map, List.filter_filter]
  congr 1
  apply List.filter_congr
  intro l _
  cases hl : l.content <;> simp [hl, Content.isOwn, Content.isFiller]

theorem keptLines_cpp : s.keptLines .cpp = s.lines.map some := by
  simp [keptLines, Backend.fillsEmptyBlocks]

end EmissionState

namespace Content

/-- The blocks that are open after a line, the innermost first, if the line closes the innermost one
or none. -/
def bracket (stack : List BlockKind) : Content → Option (List BlockKind)
  | .openBranch .. => some (.branch :: stack)
  | .openFunction .. => some (.function :: stack)
  | .close kind => if stack.head? = some kind then some stack.tail else none
  | _ => some stack

/-- Every closer closes what the last open opener opened, and nothing stays open. -/
def IsBalanced (text : List Content) : Prop := text.foldlM bracket [] = some []

end Content

namespace EmissionState
open Content

/-- The open blocks of a typed emission are what its text leaves open. -/
def Brackets (s : EmissionState) : Prop :=
  s.contents.foldlM bracket [] = some (s.control.blocks.map Prod.fst)

variable {s t : EmissionState} {c : Content}

theorem Brackets.append (h : s.Brackets) (hcontents : t.contents = s.contents ++ [c])
    (hc : bracket (s.control.blocks.map Prod.fst) c = some (t.control.blocks.map Prod.fst)) :
    t.Brackets := by
  rw [Brackets, hcontents, List.foldlM_append, h]
  simpa using hc

theorem Brackets.congr (h : s.Brackets) (hcontents : t.contents = s.contents)
    (hcontrol : t.control.blocks = s.control.blocks) : t.Brackets := by
  rwa [Brackets, hcontents, hcontrol]

theorem Brackets.openBlock (h : s.Brackets) {kind : BlockKind} (label : Option String)
    {opener : Content} (hopener : ∀ stack, bracket stack opener = some (kind :: stack)) :
    (s.openBlock kind label opener).Brackets := by
  apply h.append (contents_openBlock kind label opener)
  rw [control_openBlock]
  exact hopener _

theorem Brackets.closeBlock (h : s.Brackets) : (s.closeBlock .cpp).Brackets := by
  cases hb : s.blocks with
  | nil =>
    rwa [closeBlock_nil .cpp hb]
  | cons block rest =>
    apply h.append (contents_closeBlock hb)
    rw [control_closeBlock]
    simp [bracket, control, Control.close, hb]

end EmissionState

namespace Emission
open EmissionState Content

variable {s s' t : EmissionState} {i : Instruction} {is : List Instruction}
  {upcoming : Option Instruction}

theorem Enters.brackets (h : Enters s t) (hs : s.Brackets) : t.Brackets := by
  cases h with
  | nothing => exact hs
  | @function header hsome =>
    have hidle : ({ s with header := none } : EmissionState).Brackets := hs
    exact (hidle.openBlock header.name fun _ => rfl).congr rfl rfl

theorem Performs.brackets (h : Performs .cpp upcoming s i s') (hs : s.Brackets) : s'.Brackets := by
  cases h with
  | declareUntyped hb => cases hb
  | declareTyped =>
    exact hs.append (contents_writeStatement _) (by rw [control_writeStatement]; rfl)
  | declareAgain | func | param => exact hs.congr rfl rfl
  | mov _ _ hreads | binary _ _ hreads =>
    apply hs.append
    · rw [contents_writeStatement, contents_noteUse, contents_noteReads hreads]
    · rw [control_writeStatement, control_noteUse, control_noteReads hreads]
      rfl
  | cmp _ _ hreads =>
    have hcontents := contents_noteReads hreads
    have hblocks := congrArg Control.blocks (control_noteReads hreads)
    exact hs.congr hcontents hblocks
  | ret _ hreads =>
    apply hs.append
    · rw [contents_writeStatement, contents_noteReads hreads]
    · rw [control_writeStatement, control_noteReads hreads]
      rfl
  | branch =>
    have htested : ({ awaitLabel s i.label with tested := none } : EmissionState).Brackets := hs
    exact htested.openBlock i.label fun _ => rfl
  | jump => exact hs.append (contents_write _) rfl
  | jumpClosing =>
    have hmarked : ((awaitLabel s i.label).write (.jumpMark (Name.ofOption i.label))).Brackets :=
      hs.append (contents_write _) rfl
    exact hmarked.closeBlock
  | label => exact hs.append (contents_write _) rfl
  | labelClosing => exact hs.closeBlock.append (contents_write _) rfl
  | endFunc => exact hs.closeBlock

theorem brackets_step (h : step .cpp upcoming s i = .ok s') (hs : s.Brackets) : s'.Brackets := by
  obtain ⟨t, u, henter, -, hperforms, rfl⟩ := step_cases h
  have ht : t.Brackets := by
    rcases henter with ⟨-, rfl⟩ | ⟨-, henters⟩
    · exact hs
    · exact henters.brackets hs
  exact (hperforms.brackets ht).congr rfl rfl

theorem isBalanced_of_emit (h : emit .cpp is = .ok s) : IsBalanced s.contents := by
  have hinitial : (initial .cpp).Brackets := rfl
  have hbrackets : s.Brackets :=
    after_invariant (P := fun _ s => s.Brackets) hinitial
      (fun _ _ _ _ _ hs hstep => brackets_step hstep hs) le_rfl (after_length_of_emit h).1
  have hempty : s.control.blocks = [] := by simp [EmissionState.control, (emit_closed h).2.1]
  rw [Brackets, hempty] at hbrackets
  exact hbrackets

end Emission

open EmissionState Streams Emission Content

/-- Every accepted stream is written out position by position. Fillers and closers aside, the lines
are those of the instructions that have one, in their order, each as deep as there are branches and
functions around it. In the typed text each branch and each function has one closing line as well,
as deep as its opener and after all lines of its block, so that openers and closers are balanced. -/
theorem emitted_lines_follow_blocks {b : Backend} {is : List Instruction} {s : EmissionState}
    (h : emit b is = .ok s) :
    s.instructionLines.map some =
      ((List.range is.length).filter (writesLine b is)).map (lineAt b is) ∧
    (b = .cpp →
      s.lines.map some = (List.range is.length).flatMap (fun k =>
        (ending is k).map (fun p => some (closingLine b is p)) ++
          if writesLine b is k then [lineAt b is k] else []) ∧
      IsBalanced s.contents ∧
      (Content.close .branch).text b = "\x7d" ∧ (Content.close .function).text b = "\x7d;") := by
  have hlines := keptLines_of_emit h
  constructor
  · rw [← filter_keptLines (b := b), hlines]
    apply filter_listing
    intro line hline
    rw [← hlines, keptLines] at hline
    obtain ⟨l, -, rfl⟩ := List.mem_map.mp hline
    rfl
  · intro hb
    subst hb
    rw [keptLines_cpp] at hlines
    exact ⟨hlines, isBalanced_of_emit h, rfl, rfl⟩

/-- A function with a branch that a jump closes in front of its label. The typed text does not
declare the parameter again. -/
def branchInFunction : List Instruction :=
  [.func "f" .unknown, .param "a" .unknown, .decl "a" .unknown, .cmp (.var (.text "a")) .unknown,
   .jumpIfFalse "L0" .unknown, .mov "x" (.var (.text "a")) .unknown, .jump "L1" .unknown,
   .mark "L0", .ret (some (.var (.text "x"))) .unknown, .mark "L1", .endFunc .unknown]

/-- The lines of the body of `branchInFunction`, its declaration aside, where the function stands at
a depth. -/
def branchInFunctionLines (depth : Nat) : List Line :=
  [⟨depth + 1, .openBranch true (.var (.text "a"))⟩,
   ⟨depth + 2, .assign (.text "x") (.copy (.var (.text "a")))⟩, ⟨depth + 2, .jumpMark (.text "L1")⟩,
   ⟨depth + 1, .labelMark (.text "L0")⟩, ⟨depth + 1, .ret (some (.var (.text "x"))) true⟩,
   ⟨depth + 1, .labelMark (.text "L1")⟩]

theorem branchInFunction_lines_follow_blocks :
    (∃ s, emit .python branchInFunction = .ok s ∧
      ((List.range 11).filter (writesLine .python branchInFunction)).map
          (lineAt .python branchInFunction) =
        (⟨0, .openFunction (.text "f") [.text "a"]⟩ :: ⟨1, .declare .untyped (.text "a")⟩ ::
          branchInFunctionLines 0 : List Line).map some) ∧
    ∃ s, emit .cpp branchInFunction = .ok s ∧
      ((List.range 11).filter (writesLine .cpp branchInFunction)).map
          (lineAt .cpp branchInFunction) =
        (⟨1, .openFunction (.text "f") [.text "a"]⟩ ::
          branchInFunctionLines 1 : List Line).map some ∧
      s.lines[4]?.map Line.content = some (.close .branch) ∧
      s.lines[8]?.map Line.content = some (.close .function) ∧ IsBalanced s.contents := by
  have hpython : ∃ s, emit .python branchInFunction = .ok s ∧ s.instructionLines =
      ⟨0, .openFunction (.text "f") [.text "a"]⟩ :: ⟨1, .declare .untyped (.text "a")⟩ ::
        branchInFunctionLines 0 := ⟨_, rfl, rfl⟩
  have hcpp : ∃ s, emit .cpp branchInFunction = .ok s ∧ s.instructionLines =
      ⟨1, .openFunction (.text "f") [.text "a"]⟩ :: branchInFunctionLines 1 ∧
      s.lines[4]?.map Line.content = some (.close .branch) ∧
      s.lines[8]?.map Line.content = some (.close .function) := ⟨_, rfl, rfl, rfl, rfl⟩
  obtain ⟨s, hs, hlines⟩ := hpython
  obtain ⟨t, ht, hlines', hbranch, hfunction⟩ := hcpp
  constructor
  · refine ⟨s, hs, ?_⟩
    rw [← hlines]
    exact (emitted_lines_follow_blocks hs).1.symm
  · obtain ⟨hown, htyped⟩ := emitted_lines_follow_blocks ht
    refine ⟨t, ht, ?_, hbranch, hfunction, (htyped rfl).2.1⟩
    rw [← hlines']
    exact hown.symm

end Sil
