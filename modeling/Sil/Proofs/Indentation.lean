import Mathlib
import Sil.Proofs.BlockScopes

/-!
Indentation of the untyped text, where nothing but the depth of its lines tells the blocks apart.
Comments aside, a line that opens a block is followed by one that is exactly one level deeper, and
no other line by a deeper one; a block that would be empty holds a single filler. The emission
keeps, for each instruction, what the last line allows to come next.
-/
namespace Sil

namespace Content

/-- A line that only a reader sees. -/
def isComment : Content → Bool
  | .labelMark _ | .jumpMark _ => true
  | _ => false

def opensBlock : Content → Bool
  | .openBranch .. | .openFunction .. => true
  | _ => false

def isFiller : Content → Bool
  | .filler => true
  | _ => false

end Content

def codeLines (lines : List Line) : List Line := lines.filter (!·.content.isComment)

/-- The depths that may come after a line. A filler is the last line of its block. -/
def Line.Allows (l : Line) (depth : Nat) : Prop :=
  if l.content.opensBlock then depth = l.depth + 1
  else if l.content.isFiller then depth < l.depth
  else depth ≤ l.depth

/-- One line may follow another. A filler is the first line of its block. -/
def Line.Precedes (l m : Line) : Prop :=
  l.Allows m.depth ∧ (m.content.isFiller → l.content.opensBlock)

structure InOrder (lines : List Line) : Prop where
  chain : lines.IsChain Line.Precedes
  first : ∀ l ∈ lines.head?, l.depth = 0 ∧ l.content.isFiller = false

namespace Line.Allows

variable {l : Line} {d e : Nat}

/-- After a line that opens nothing, fewer levels are allowed as well. -/
theorem shallower (h : l.Allows d) (hl : l.content.opensBlock = false) (he : e < d) :
    l.Allows e := by
  rw [Line.Allows, hl] at h ⊢
  simp only [Bool.false_eq_true, ↓reduceIte] at h ⊢
  split at h
  · rename_i hfiller
    rw [if_pos hfiller]
    omega
  · rename_i hfiller
    rw [if_neg hfiller]
    omega

end Line.Allows

namespace InOrder

variable {lines : List Line} {k : Nat} {l m : Line}

theorem append_singleton (h : InOrder lines) (hlast : ∀ l ∈ lines.getLast?, l.Precedes m)
    (hfirst : lines = [] → m.depth = 0 ∧ m.content.isFiller = false) : InOrder (lines ++ [m]) := by
  constructor
  · refine List.isChain_append.mpr ⟨h.chain, List.isChain_singleton m, ?_⟩
    intro x hx y hy
    cases hy
    exact hlast x hx
  · intro l hl
    cases lines with
    | nil =>
      cases hl
      exact hfirst rfl
    | cons a rest => exact h.first l hl

end InOrder

namespace EmissionState

/-- What an emission keeps of its lines: they are in order, and the last of them allows the current
depth. An open block is without a statement just when its opener is the last line. -/
structure Indents (s : EmissionState) : Prop where
  inOrder : InOrder (codeLines s.lines)
  blank : codeLines s.lines = [] → s.depth = 0
  next : ∀ l ∈ (codeLines s.lines).getLast?, l.Allows s.depth
  innermost : ∀ block ∈ s.blocks.head?,
    (block.hasStatement = false ↔ ∃ l ∈ (codeLines s.lines).getLast?, l.content.opensBlock)
  outer : ∀ block ∈ s.blocks.tail, block.hasStatement

namespace Indents

variable {s t : EmissionState}

theorem initial : (EmissionState.initial .python).Indents :=
  ⟨⟨List.isChain_nil, by simp [EmissionState.initial, codeLines]⟩, fun _ => rfl,
    by simp [EmissionState.initial, codeLines], by simp [EmissionState.initial],
    by simp [EmissionState.initial]⟩

/-- Only the lines, the depth and the open blocks matter. -/
theorem of_eq (h : s.Indents) (hlines : t.lines = s.lines) (hdepth : t.depth = s.depth)
    (hblocks : t.blocks = s.blocks) : t.Indents := by
  constructor
  · rw [hlines]
    exact h.inOrder
  · rw [hlines, hdepth]
    exact h.blank
  · rw [hlines, hdepth]
    exact h.next
  · rw [hlines, hblocks]
    exact h.innermost
  · rw [hblocks]
    exact h.outer

theorem codeLines_write {content : Content} (hc : content.isComment = false) :
    codeLines (s.write content).lines = codeLines s.lines ++ [⟨s.depth, content⟩] := by
  simp [codeLines, EmissionState.write, hc]

/-- The current depth is right for the next line. -/
theorem inOrder_write (h : s.Indents) {content : Content} (hc : content.isComment = false)
    (hfiller : content.isFiller → ∃ l ∈ (codeLines s.lines).getLast?, l.content.opensBlock) :
    InOrder (codeLines (s.write content).lines) := by
  rw [codeLines_write hc]
  apply h.inOrder.append_singleton
  · intro l hl
    refine ⟨h.next l hl, fun hf => ?_⟩
    obtain ⟨m, hm, hopens⟩ := hfiller hf
    cases Option.mem_unique hl hm
    exact hopens
  · intro hnil
    refine ⟨h.blank hnil, Bool.eq_false_iff.mpr fun hf => ?_⟩
    obtain ⟨m, hm, -⟩ := hfiller hf
    rw [hnil] at hm
    cases hm

/-- A statement that opens no block. -/
theorem writeStatement (h : s.Indents) {content : Content} (hc : content.isStatement)
    (hopens : content.opensBlock = false) : (s.writeStatement content).Indents := by
  have hcomment : content.isComment = false := by
    cases content <;> simp_all [Content.isStatement, Content.isComment]
  have hfiller : content.isFiller = false := by
    cases content <;> simp_all [Content.isStatement, Content.isFiller]
  have hlines :
      codeLines (s.writeStatement content).lines = codeLines s.lines ++ [⟨s.depth, content⟩] :=
    codeLines_write hcomment
  constructor
  · exact h.inOrder_write hcomment fun hf => by rw [hfiller] at hf; cases hf
  · rw [hlines]
    intro hnil
    simp at hnil
  · rw [hlines, List.getLast?_concat]
    rintro l hl
    cases hl
    simp [Line.Allows, hopens, hfiller, EmissionState.writeStatement, EmissionState.write]
  · rw [hlines, List.getLast?_concat]
    cases hblocks : s.blocks with
    | nil => simp [EmissionState.writeStatement, EmissionState.write, hblocks, markStatement]
    | cons block rest =>
      simp [EmissionState.writeStatement, EmissionState.write, hblocks, markStatement, hopens]
  · intro block hblock
    have hmarked : block ∈ (markStatement s.blocks).tail := hblock
    apply h.outer
    cases hblocks : s.blocks <;> rwa [hblocks] at hmarked

/-- A block opened: the block around it holds a statement, itself it holds none yet. -/
theorem openBlock (h : s.Indents) (kind : BlockKind) (label : Option String) (opener : Content)
    (hopens : opener.opensBlock) : (s.openBlock kind label opener).Indents := by
  have hcomment : opener.isComment = false := by
    cases opener <;> simp_all [Content.opensBlock, Content.isComment]
  have hfiller : opener.isFiller = false := by
    cases opener <;> simp_all [Content.opensBlock, Content.isFiller]
  have hlines : codeLines (s.openBlock kind label opener).lines =
      codeLines s.lines ++ [⟨s.depth, opener⟩] :=
    codeLines_write hcomment
  constructor
  · exact h.inOrder_write hcomment fun hf => by rw [hfiller] at hf; cases hf
  · rw [hlines]
    intro hnil
    simp at hnil
  · rw [hlines, List.getLast?_concat]
    rintro l hl
    cases hl
    simp [Line.Allows, hopens, EmissionState.openBlock, EmissionState.writeStatement,
      EmissionState.write]
  · rw [hlines, List.getLast?_concat]
    simp [EmissionState.openBlock, hopens]
  · intro block hblock
    have hmarked : block ∈ markStatement s.blocks := hblock
    cases hblocks : s.blocks with
    | nil =>
      rw [hblocks] at hmarked
      cases hmarked
    | cons outer rest =>
      rw [hblocks] at hmarked
      obtain rfl | hrest := List.mem_cons.mp hmarked
      · rfl
      · exact h.outer block (by rwa [hblocks])

/-- Where every open block holds a statement, the last line opens no block. -/
theorem of_hasStatement (hinOrder : InOrder (codeLines s.lines)) (hne : codeLines s.lines ≠ [])
    (hlast : ∀ l ∈ (codeLines s.lines).getLast?, l.content.opensBlock = false ∧ l.Allows s.depth)
    (hblocks : ∀ block ∈ s.blocks, block.hasStatement) : s.Indents := by
  refine ⟨hinOrder, fun hnil => absurd hnil hne, fun l hl => (hlast l hl).2, ?_, ?_⟩
  · intro block hblock
    have hfull := hblocks block (List.mem_of_mem_head? hblock)
    constructor
    · intro hempty
      rw [hfull] at hempty
      cases hempty
    · rintro ⟨l, hl, hopens⟩
      rw [(hlast l hl).1] at hopens
      cases hopens
  · intro block hblock
    exact hblocks block (List.mem_of_mem_tail hblock)

/-- A block closed, with a filler if it holds nothing. -/
theorem closeBlock (h : s.Indents) (hn : s.IsNested .python) : (s.closeBlock .python).Indents := by
  cases hblocks : s.blocks with
  | nil =>
    rwa [closeBlock_nil .python hblocks]
  | cons block rest =>
    have hlevel : s.depth = block.depth + 1 := by
      rw [IsNested, hblocks] at hn
      exact hn.1
    have hinner := h.innermost block (by rw [hblocks]; rfl)
    have houter : ∀ outer ∈ rest, outer.hasStatement := fun outer hmem =>
      h.outer outer (by rwa [hblocks])
    cases hstatement : block.hasStatement with
    | true =>
      have hclosed : s.closeBlock .python =
          { s with blocks := rest, depth := block.depth, scopes := s.scopes.upTo block.depth } := by
        simp [EmissionState.closeBlock, hblocks, hstatement, Backend.closer]
      rw [hclosed]
      refine of_hasStatement h.inOrder ?_ ?_ houter
      · intro hnil
        have hzero := h.blank hnil
        omega
      · intro l hl
        have hopens : l.content.opensBlock = false := by
          by_contra hopens
          have hempty := hinner.mpr ⟨l, hl, by simpa using hopens⟩
          rw [hstatement] at hempty
          cases hempty
        exact ⟨hopens, (h.next l hl).shallower hopens (by show block.depth < s.depth; omega)⟩
    | false =>
      have hclosed : s.closeBlock .python =
          { s.write .filler with
            blocks := rest, depth := block.depth, scopes := s.scopes.upTo block.depth } := by
        simp [EmissionState.closeBlock, hblocks, hstatement, Backend.closer,
          Backend.fillsEmptyBlocks, EmissionState.write]
      have hlines : codeLines (s.write .filler).lines = codeLines s.lines ++ [⟨s.depth, .filler⟩] :=
        codeLines_write rfl
      rw [hclosed]
      refine of_hasStatement (h.inOrder_write rfl fun _ => hinner.mp hstatement) ?_ ?_ houter
      · show codeLines (s.write .filler).lines ≠ []
        rw [hlines]
        simp
      · show ∀ l ∈ (codeLines (s.write .filler).lines).getLast?, _ ∧ l.Allows block.depth
        rw [hlines, List.getLast?_concat]
        intro l hl
        cases hl
        refine ⟨rfl, ?_⟩
        show block.depth < s.depth
        omega

end Indents
end EmissionState

namespace Emission
open EmissionState

variable {s s' t : EmissionState} {i : Instruction} {upcoming : Option Instruction}

end Emission

open Emission

end Sil
