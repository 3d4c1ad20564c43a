import Mathlib
import Sil.Proofs.BlockScopes
import Sil.Proofs.OpenPositions

/-!
What holds of the state of an emission after every instruction, whatever the stream: the depth
counts the open blocks, each block was opened one level below the one around it, at most one
function is open or about to open, a label is never met and awaited at once, the scope map knows no
depth outside the open blocks, and an operand is tested only between a comparison and the
instruction after it.
-/
namespace Sil

namespace ScopeMap

variable {scopes : ScopeMap} {low high d : Nat}

/-- Every depth that a scope map knows lies between two others. -/
def Within (low high : Nat) (scopes : ScopeMap) : Prop :=
  ∀ entry ∈ scopes, low ≤ entry.1 ∧ entry.1 ≤ high

theorem mem_setNames {names : List Name} {entry : Nat × List Name}
    (h : entry ∈ setNames d names scopes) : entry ∈ scopes ∨ entry.1 = d := by
  induction scopes with
  | nil =>
    obtain rfl := List.mem_singleton.mp h
    exact .inr rfl
  | cons first rest ih =>
    unfold setNames at h
    split at h
    · rename_i heq
      obtain rfl | h := List.mem_cons.mp h
      · exact .inr heq
      · exact .inl (List.mem_cons_of_mem _ h)
    · obtain rfl | h := List.mem_cons.mp h
      · exact .inl List.mem_cons_self
      · exact (ih h).imp_left (List.mem_cons_of_mem _)

theorem Within.setNames (h : scopes.Within low high) (hlow : low ≤ d) (hhigh : d ≤ high)
    (names : List Name) : (ScopeMap.setNames d names scopes).Within low high := by
  intro entry hentry
  obtain hentry | rfl := mem_setNames hentry
  · exact h entry hentry
  · exact ⟨hlow, hhigh⟩

theorem Within.add (h : scopes.Within low high) (hlow : low ≤ d) (hhigh : d ≤ high) (n : Name) :
    (scopes.add d n).Within low high :=
  h.setNames hlow hhigh _

theorem Within.deepen (h : scopes.Within low high) : scopes.Within low (high + 1) :=
  fun entry hentry => ⟨(h entry hentry).1, Nat.le_succ_of_le (h entry hentry).2⟩

theorem Within.upTo (h : scopes.Within low high) (d : Nat) : (scopes.upTo d).Within low d := by
  intro entry hentry
  obtain ⟨hentry, hle⟩ := List.mem_filter.mp hentry
  exact ⟨(h entry hentry).1, of_decide_eq_true hle⟩

end ScopeMap

namespace EmissionState

/-- Blocks are nested from a base depth on if they count up to the depth and each of them records
its position, counted from the outermost. -/
theorem nested_iff {base depth : Nat} {blocks : List Block} : Nested base depth blocks ↔
    depth = base + blocks.length ∧
      ∀ k block, blocks.reverse[k]? = some block → block.depth = base + k := by
  induction blocks generalizing depth with
  | nil => simp [Nested]
  | cons inner rest ih =>
    have hinner : (inner :: rest).reverse[rest.length]? = some inner := by simp
    have houter {k : Nat} (hk : k < rest.length) :
        (inner :: rest).reverse[k]? = rest.reverse[k]? := by
      rw [List.reverse_cons, List.getElem?_append_left (by simpa using hk)]
    rw [Nested, ih, List.length_cons]
    constructor
    · rintro ⟨hdepth, hlength, hrest⟩
      refine ⟨by omega, fun k block hk => ?_⟩
      obtain hlt | rfl | hgt := lt_trichotomy k rest.length
      · exact hrest k block (houter hlt ▸ hk)
      · rw [hinner] at hk
        cases hk
        exact hlength
      · rw [List.getElem?_eq_none (by simpa using hgt)] at hk
        cases hk
    · rintro ⟨hlength, hblocks⟩
      have hdepth := hblocks rest.length inner hinner
      refine ⟨by omega, hdepth, fun k block hk => hblocks k block ?_⟩
      have hlt : k < rest.length := by simpa using (List.getElem?_eq_some_iff.mp hk).1
      rw [houter hlt, hk]

def ScopesWithin (b : Backend) (s : EmissionState) : Prop := s.scopes.Within b.baseDepth s.depth

variable {b : Backend} {s : EmissionState}

theorem IsNested.base_le (h : s.IsNested b) : b.baseDepth ≤ s.depth := by
  have hdepth := nested_length h
  omega

theorem ScopesWithin.noteUse (h : s.ScopesWithin b) (hn : s.IsNested b) (n : Name)
    (type : ValueType) :
    (s.noteUse b n type).ScopesWithin b := by
  unfold EmissionState.noteUse
  split
  · exact h
  · exact h.add le_rfl hn.base_le n

theorem ScopesWithin.closeBlock (h : s.ScopesWithin b) : (s.closeBlock b).ScopesWithin b := by
  unfold EmissionState.closeBlock
  split
  · exact h
  · rename_i block rest _
    dsimp only
    split <;> split <;> exact h.upTo block.depth

/-- What holds of a state after each instruction, the last of which is given. -/
structure Coherent (b : Backend) (last : Option Instruction) (s : EmissionState) : Prop where
  depth : s.depth = b.baseDepth + s.blocks.length
  /-- Blocks count from the outermost. -/
  block : ∀ k block, s.blocks.reverse[k]? = some block → block.depth = b.baseDepth + k
  oneFunction : s.blocks.countP (·.kind == .function) ≤ 1
  noFunction : s.header.isSome → ∀ block ∈ s.blocks, block.kind ≠ .function
  labels : ∀ label ∈ s.definedLabels, label ∉ s.forwardTargets
  scopes : ∀ entry ∈ s.scopes, b.baseDepth ≤ entry.1 ∧ entry.1 ≤ s.depth
  tested : s.tested.isSome ↔ ∃ i, last = some i ∧ i.opcode = .cmp

end EmissionState

namespace Control

open Streams

variable {c c' : Control} {i : Instruction} {upcoming : Option Instruction}

/-- The functions that are open or about to open. -/
def functions (c : Control) : Nat := c.blocks.countP (·.1 == .function) + c.header.toList.length

@[simp] theorem functions_enter : c.enter.functions = c.functions := by
  unfold enter functions
  split
  · rfl
  · rename_i header hheader
    simp [hheader]

theorem functions_close_le : c.close.functions ≤ c.functions := by
  have hsub : c.blocks.tail.countP (·.1 == .function) ≤ c.blocks.countP (·.1 == .function) :=
    (List.tail_sublist c.blocks).countP_le
  exact Nat.add_le_add_right hsub _

/-- No instruction lets a second function in. -/
theorem functions_le_of_moves (h : Moves upcoming c i c') (hc : c.functions ≤ 1) :
    c'.functions ≤ 1 := by
  rw [← functions_enter] at hc
  cases h with
  | plain => exact hc
  | cmp => exact hc
  | branch =>
    have hbranch : ((.branch, i.label) :: c.enter.blocks).countP (·.1 == .function) =
        c.enter.blocks.countP (·.1 == .function) := by simp
    exact (congrArg (· + _) hbranch).trans_le hc
  | jump => exact hc
  | jumpClosing => exact functions_close_le.trans hc
  | label => exact hc
  | labelClosing => exact functions_close_le.trans hc
  | func _ _ hb =>
    have hnone : c.enter.blocks.countP (·.1 == .function) = 0 :=
      List.countP_eq_zero.mpr fun block hblock => by simp [hb block hblock]
    simp [functions, hnone]
  | param _ _ hh =>
    rw [functions_enter] at hc
    simpa [functions, hh] using hc
  | endFunc => exact functions_close_le.trans hc

/-- A label that was met is awaited no more. -/
theorem labels_apart_of_moves (h : Moves upcoming c i c')
    (hc : ∀ label ∈ c.defined, label ∉ c.awaited) :
    ∀ label ∈ c'.defined, label ∉ c'.awaited := by
  intro label hdefined hawaited
  obtain ⟨hwait, hmet⟩ := (mem_awaited_of_moves h).mp hawaited
  rw [moves_defined h, List.mem_append] at hdefined
  rcases hdefined with hold | hnew
  · rcases hwait with hwait | ⟨-, -, hfresh⟩
    · exact hc label hold hwait
    · exact hfresh hold
  · split at hnew
    · rename_i hlabel
      exact hmet ⟨hlabel, (List.mem_singleton.mp hnew).symm⟩
    · cases hnew

end Control

theorem EmissionState.functions_le_iff {s : EmissionState} : s.control.functions ≤ 1 ↔
    s.blocks.countP (·.kind == .function) ≤ 1 ∧
      (s.header.isSome → ∀ block ∈ s.blocks, block.kind ≠ .function) := by
  have hcount : s.control.functions =
      s.blocks.countP (·.kind == .function) + s.header.toList.length := by
    simp [Control.functions, control, List.countP_map, Function.comp_def]
  have hnone : s.blocks.countP (·.kind == .function) = 0 ↔
      ∀ block ∈ s.blocks, block.kind ≠ .function := by
    simp [List.countP_eq_zero]
  rw [hcount, ← hnone]
  cases s.header with
  | none => simp
  | some header =>
    simp only [Option.toList_some, List.length_singleton, Option.isSome_some, forall_const]
    omega

namespace Emission
open EmissionState

variable {b : Backend} {s s' t : EmissionState} {i : Instruction} {last : Option Instruction}
  {k : Nat} {is : List Instruction} {upcoming : Option Instruction}

theorem scopesWithin_noteReads {operands : List Operand} (h : noteReads b s operands = .ok t)
    (hn : s.IsNested b) (hs : s.ScopesWithin b) : t.ScopesWithin b := by
  rw [noteReads_eq h]
  clear h
  generalize operands.filterMap Operand.name? = names
  induction names generalizing s with
  | nil => exact hs
  | cons n names ih => exact ih (hn.noteUse n _) (hs.noteUse hn n _)

theorem Enters.scopesWithin (h : Enters s s') (hn : s.IsNested b) (hs : s.ScopesWithin b) :
    s'.ScopesWithin b := by
  cases h with
  | nothing => exact hs
  | function => exact hs.deepen.setNames (Nat.le_succ_of_le hn.base_le) le_rfl _

theorem Performs.scopesWithin (h : Performs b upcoming s i s') (hn : s.IsNested b)
    (hs : s.ScopesWithin b) : s'.ScopesWithin b := by
  cases h with
  | declareUntyped => exact hs.add hn.base_le le_rfl _
  | declareTyped => exact hs.add hn.base_le le_rfl _
  | mov _ _ hreads | binary _ _ hreads =>
    exact (scopesWithin_noteReads hreads hn hs).noteUse (isNested_noteReads hreads hn) _ _
  | cmp _ _ hreads | ret _ hreads =>
    -- After the reads, neither the scope map nor the depth changes.
    have hread := scopesWithin_noteReads hreads hn hs
    exact hread
  | branch => exact hs.deepen
  | jumpClosing =>
    exact ScopesWithin.closeBlock
      (s := (awaitLabel s i.label).write (.jumpMark (Name.ofOption i.label))) hs
  | labelClosing => exact hs.closeBlock
  | endFunc => exact hs.closeBlock
  | declareAgain | jump | label | func | param => exact hs

theorem scopesWithin_step (h : step b upcoming s i = .ok s') (hn : s.IsNested b)
    (hs : s.ScopesWithin b) : s'.ScopesWithin b := by
  obtain ⟨t, u, henter, -, hperforms, rfl⟩ := step_cases h
  rcases henter with ⟨-, rfl⟩ | ⟨-, henters⟩
  · exact hperforms.scopesWithin hn hs
  · exact hperforms.scopesWithin (henters.isNested hn) (henters.scopesWithin hn hs)

theorem Performs.operands_ne_nil_of_cmp (h : Performs b upcoming s i s') (hcmp : i.opcode = .cmp) :
    i.operands ≠ [] := by
  cases h with
  | cmp _ htest => simp [htest]
  | branch ho => simp [hcmp, Opcode.isConditionalJump] at ho
  | declareUntyped _ ho | declareTyped _ ho | declareAgain _ ho | mov ho | binary ho | jump ho
  | jumpClosing ho | label ho | labelClosing ho | func ho | param ho | endFunc ho | ret ho =>
    rw [hcmp] at ho
    cases ho

/-- A comparison leaves an operand tested, and every other instruction leaves none. -/
theorem tested_step (h : step b upcoming s i = .ok s') : s'.tested.isSome ↔ i.opcode = .cmp := by
  have htested : s'.tested = if i.opcode = .cmp then i.operands.head? else none :=
    Streams.moves_tested_eq (step_moves h)
  rw [htested]
  split
  · rename_i hcmp
    obtain ⟨t, u, -, -, hperforms, rfl⟩ := step_cases h
    simp [hperforms.operands_ne_nil_of_cmp hcmp, hcmp]
  · rename_i hcmp
    simp [hcmp]

theorem coherent_initial (b : Backend) : (initial b).Coherent b none where
  depth := rfl
  block k block hk := by cases hk
  oneFunction := Nat.zero_le 1
  noFunction hheader := by cases hheader
  labels label hlabel := by cases hlabel
  scopes entry hentry := by cases hentry
  tested := by simp [initial]

/-- One instruction keeps a state coherent, whatever its fields hold. -/
theorem coherent_step (h : step b upcoming s i = .ok s') (hs : s.Coherent b last) :
    s'.Coherent b (some i) := by
  have hmoves := step_moves h
  have hnested : s.IsNested b := nested_iff.mpr ⟨hs.depth, hs.block⟩
  obtain ⟨hdepth, hblock⟩ := nested_iff.mp (isNested_step h hnested)
  have hfunctions :=
    Control.functions_le_of_moves hmoves (functions_le_iff.mpr ⟨hs.oneFunction, hs.noFunction⟩)
  exact {
    depth := hdepth
    block := hblock
    oneFunction := (functions_le_iff.mp hfunctions).1
    noFunction := (functions_le_iff.mp hfunctions).2
    labels := Control.labels_apart_of_moves hmoves hs.labels
    scopes := scopesWithin_step h hnested hs.scopes
    tested := by simpa using tested_step h }

end Emission

open Emission EmissionState in
/-- The state of an emission is coherent after every prefix of every stream that is gone through
without an error. -/
theorem coherent_after_prefix (b : Backend) (is : List Instruction) {k : Nat} (hk : k ≤ is.length)
    {s : EmissionState} (h : after b (initial b) is k = .ok s) :
    s.Coherent b (is.take k).getLast? := by
  refine after_invariant (P := fun k t => t.Coherent b (is.take k).getLast?) ?_ ?_ hk h
  · exact coherent_initial b
  · intro k i t t' hi ht hstep
    have hlast : (is.take (k + 1)).getLast? = some i := by
      rw [List.take_add_one, hi]
      simp
    rw [hlast]
    exact coherent_step hstep ht

/-- A stream that breaks off between a comparison and its jump, in a branch of a function. -/
def breaksOff : List Instruction :=
  [.mark "L0", .func "f" .unknown, .param "n" .unknown, .cmp (.var "n") .unknown,
    .jumpIfFalse "L1" .unknown, .decl "x" .unknown, .cmp (.var "y") .unknown]

open Emission EmissionState in
theorem breaksOff_coherent :
    ∃ s, after .cpp (initial .cpp) breaksOff 7 = .ok s ∧ s.depth = 3 ∧
      s.blocks.map (fun block => (block.kind, block.depth)) = [(.branch, 2), (.function, 1)] ∧
      s.definedLabels = [some "L0"] ∧ s.forwardTargets = [some "L1"] ∧ s.tested.isSome ∧
      s.Coherent .cpp (some (.cmp (.var "y") .unknown)) := by
  have hafter : ∃ s, after .cpp (initial .cpp) breaksOff 7 = .ok s ∧ s.depth = 3 ∧
      s.blocks.map (fun block => (block.kind, block.depth)) = [(.branch, 2), (.function, 1)] ∧
      s.definedLabels = [some "L0"] ∧ s.forwardTargets = [some "L1"] ∧ s.tested.isSome :=
    ⟨_, rfl, rfl, rfl, rfl, rfl, rfl⟩
  obtain ⟨s, hs, hdepth, hblocks, hdefined, hforward, htested⟩ := hafter
  exact ⟨s, hs, hdepth, hblocks, hdefined, hforward, htested,
    coherent_after_prefix .cpp breaksOff le_rfl hs⟩

end Sil
