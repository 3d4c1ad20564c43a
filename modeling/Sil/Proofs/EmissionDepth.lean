import Mathlib
import Sil.Proofs.EmissionControl

/-!
The depth of an emission follows its open blocks: each block was opened one level above what it
holds, the outermost at the base depth of the target language. Every instruction keeps this,
whatever its fields, so a stream that closes its blocks ends at the base depth.
-/
namespace Sil.EmissionState

/-- Blocks, the innermost first, that were opened one below the other from a base depth on. -/
def Nested (base : Nat) : Nat → List Block → Prop
  | depth, [] => depth = base
  | depth, block :: rest => depth = block.depth + 1 ∧ Nested base block.depth rest

def IsNested (b : Backend) (s : EmissionState) : Prop := Nested b.baseDepth s.depth s.blocks

theorem nested_markStatement {base depth : Nat} {blocks : List Block} :
    Nested base depth (markStatement blocks) ↔ Nested base depth blocks := by
  cases blocks <;> rfl

theorem nested_length {base depth : Nat} {blocks : List Block} (h : Nested base depth blocks) :
    depth = base + blocks.length := by
  induction blocks generalizing depth with
  | nil => exact h
  | cons block rest ih =>
    obtain ⟨hd, hrest⟩ := h
    have hblock := ih hrest
    rw [List.length_cons]
    omega

variable {b : Backend} {s s' : EmissionState}

theorem IsNested.write (h : s.IsNested b) (content : Content) : (s.write content).IsNested b := h

theorem IsNested.writeStatement (h : s.IsNested b) (content : Content) :
    (s.writeStatement content).IsNested b :=
  nested_markStatement.mpr h

theorem IsNested.openBlock (h : s.IsNested b) (kind : BlockKind) (label : Option String)
    (opener : Content) : (s.openBlock kind label opener).IsNested b :=
  ⟨rfl, h.writeStatement opener⟩

theorem IsNested.closeBlock (h : s.IsNested b) : (s.closeBlock b).IsNested b := by
  unfold EmissionState.closeBlock
  split
  · exact h
  · rename_i block rest hb
    have hrest : Nested b.baseDepth block.depth rest := by
      unfold IsNested at h
      rw [hb] at h
      exact h.2
    dsimp only
    split <;> exact hrest

theorem IsNested.noteUse (h : s.IsNested b) (n : Name) (type : ValueType) :
    (s.noteUse b n type).IsNested b := by
  unfold EmissionState.noteUse
  split <;> exact h

end Sil.EmissionState

namespace Sil.Emission
open EmissionState

variable {b : Backend} {s s' : EmissionState} {i : Instruction}

theorem isNested_noteReads {operands : List Operand} (h : noteReads b s operands = .ok s')
    (hs : s.IsNested b) : s'.IsNested b := by
  induction operands generalizing s with
  | nil =>
    cases h
    exact hs
  | cons o rest ih =>
    unfold noteReads at h
    split at h
    · exact ih h hs
    · split at h
      · cases h
      · exact ih h (hs.noteUse _ _)

theorem isNested_assign {source : Source} (h : assign b s i source = .ok s') (hs : s.IsNested b) :
    s'.IsNested b := by
  obtain ⟨t, ht, h⟩ := bind_eq_ok.mp h
  cases h
  exact ((isNested_noteReads ht hs).noteUse _ _).writeStatement _

theorem isNested_declare {upcoming : Option Instruction} (h : declare b upcoming s i = .ok s')
    (hs : s.IsNested b) : s'.IsNested b := by
  have hsame {t : EmissionState} (hd : t.depth = s.depth) (hb : t.blocks = s.blocks) :
      t.IsNested b := by
    unfold IsNested
    rw [hd, hb]
    exact hs
  unfold declare at h
  cases b with
  | python =>
    cases h
    exact (hsame rfl rfl).writeStatement (.declare .untyped (Name.ofOption i.name))
  | cpp =>
    dsimp only at h
    split at h
    · cases h
      exact hsame rfl rfl
    · obtain ⟨type, ht, h⟩ := bind_eq_ok.mp h
      cases h
      exact (hsame rfl rfl).writeStatement (.declare type (Name.ofOption i.name))

theorem isNested_branch {whenFalse : Bool} (h : branch s i whenFalse = .ok s')
    (hs : s.IsNested b) : s'.IsNested b := by
  unfold branch at h
  cases ht : s.tested with
  | none =>
    rw [ht] at h
    cases h
  | some test =>
    rw [ht] at h
    cases hd : s.definedLabels.contains i.label with
    | true =>
      simp only [hd, ↓reduceIte] at h
      cases h
    | false =>
      simp only [hd, Bool.false_eq_true, ↓reduceIte] at h
      obtain ⟨u, -, h⟩ := bind_eq_ok.mp h
      cases h
      exact IsNested.openBlock (s := { s with
        tested := none
        forwardTargets :=
          if s.forwardTargets.contains i.label then s.forwardTargets
          else s.forwardTargets ++ [i.label] }) hs .branch i.label (.openBranch whenFalse test)

theorem isNested_jump (upcoming : Option Instruction) (i : Instruction) (hs : s.IsNested b) :
    (jump b upcoming s i).IsNested b := by
  unfold jump
  have hawait : EmissionState.IsNested b
      (if s.definedLabels.contains i.label || s.forwardTargets.contains i.label then s
        else { s with forwardTargets := s.forwardTargets ++ [i.label] }) := by
    split <;> exact hs
  generalize (if s.definedLabels.contains i.label || s.forwardTargets.contains i.label then s
      else { s with forwardTargets := s.forwardTargets ++ [i.label] }) = t at hawait
  cases upcoming with
  | none => exact hawait
  | some next =>
    dsimp only
    split
    · exact (hawait.write _).closeBlock
    · exact hawait.write _

theorem isNested_defineLabel (h : defineLabel b s i = .ok s') (hs : s.IsNested b) :
    s'.IsNested b := by
  unfold defineLabel at h
  cases hd : s.definedLabels.contains i.label with
  | true =>
    simp only [hd, ↓reduceIte] at h
    cases h
  | false =>
    simp only [hd, Bool.false_eq_true, ↓reduceIte] at h
    split at h
    · cases h
      exact hs.closeBlock
    · split at h
      · cases h
      · cases h
        exact hs

theorem isNested_openFunction (h : openFunction b s = .ok s') (hs : s.IsNested b) :
    s'.IsNested b := by
  unfold openFunction at h
  cases hh : s.header with
  | none =>
    rw [hh] at h
    cases h
    exact hs
  | some header =>
    rw [hh] at h
    dsimp only at h
    split at h
    · cases h
    · cases h
      exact IsNested.openBlock (s := { s with header := none }) hs .function header.name
        (.openFunction (Name.ofOption header.name) (header.params.map Name.ofOption))

theorem isNested_perform {upcoming : Option Instruction} (h : perform b upcoming s i = .ok s')
    (hs : s.IsNested b) : s'.IsNested b := by
  unfold perform at h
  cases hop : i.opcode with
  | decl =>
    rw [hop] at h
    exact isNested_declare h hs
  | mov =>
    rw [hop] at h
    dsimp only at h
    split at h
    · cases h
    · obtain ⟨u, -, h⟩ := bind_eq_ok.mp h
      exact isNested_assign h hs
  | binary op =>
    rw [hop] at h
    obtain ⟨⟨left, right⟩, -, h⟩ := bind_eq_ok.mp h
    exact isNested_assign h hs
  | cmp =>
    rw [hop] at h
    obtain ⟨t, ht, h⟩ := bind_eq_ok.mp h
    have hnested := isNested_noteReads ht hs
    split at h
    · cases h
    · cases h
      exact hnested
  | jumpIfFalse | jumpIfTrue =>
    rw [hop] at h
    exact isNested_branch h hs
  | jump =>
    rw [hop] at h
    cases h
    exact isNested_jump upcoming i hs
  | label =>
    rw [hop] at h
    exact isNested_defineLabel h hs
  | func =>
    rw [hop] at h
    dsimp only at h
    split at h
    · cases h
    · cases h
      exact hs
  | param =>
    rw [hop] at h
    dsimp only at h
    split at h
    · cases h
    · cases h
      exact hs
  | endFunc =>
    rw [hop] at h
    dsimp only at h
    split at h
    · cases h
    · split at h
      · cases h
        exact hs.closeBlock
      · cases h
  | ret =>
    rw [hop] at h
    obtain ⟨t, ht, h⟩ := bind_eq_ok.mp h
    have hnested := isNested_noteReads ht hs
    split at h
    · cases h
      exact hnested.writeStatement _
    · obtain ⟨u, -, h⟩ := bind_eq_ok.mp h
      cases h
      exact hnested.writeStatement _

/-- One instruction keeps the depth at that of the innermost open block. -/
theorem isNested_step {upcoming : Option Instruction} (h : step b upcoming s i = .ok s')
    (hs : s.IsNested b) : s'.IsNested b := by
  rw [step_eq] at h
  obtain ⟨t, ht, h⟩ := bind_eq_ok.mp h
  obtain ⟨-, -, h⟩ := bind_eq_ok.mp h
  obtain ⟨u, hu, h⟩ := bind_eq_ok.mp h
  cases h
  have hopened : t.IsNested b := by
    split at ht
    · cases ht
      exact hs
    · exact isNested_openFunction ht hs
  have hperformed : u.IsNested b := isNested_perform hu hopened
  exact hperformed

theorem isNested_run {is : List Instruction} (h : run b s is = .ok s') (hs : s.IsNested b) :
    s'.IsNested b := by
  induction is generalizing s with
  | nil =>
    cases h
    exact hs
  | cons i rest ih =>
    obtain ⟨t, ht, h⟩ := bind_eq_ok.mp h
    exact ih h (isNested_step ht hs)

/-- A stream that is accepted ends at the base depth, with no block open and no label awaited. -/
theorem emit_closed {is : List Instruction} (h : emit b is = .ok s) :
    s.depth = b.baseDepth ∧ s.blocks = [] ∧ s.forwardTargets = [] := by
  obtain ⟨t, ht, h⟩ := bind_eq_ok.mp h
  obtain ⟨u, hu, h⟩ := bind_eq_ok.mp h
  have hinitial : (EmissionState.initial b).IsNested b := rfl
  have hnested := isNested_openFunction hu (isNested_run ht hinitial)
  cases hb : u.blocks with
  | cons block rest =>
    rw [hb] at h
    cases h
  | nil =>
    rw [hb] at h
    dsimp only at h
    split at h
    · rename_i hempty
      cases h
      have hdepth := nested_length hnested
      rw [hb] at hdepth
      exact ⟨hdepth, hb, List.isEmpty_iff.mp hempty⟩
    · obtain ⟨label, -, h⟩ := bind_eq_ok.mp h
      cases h

end Sil.Emission
