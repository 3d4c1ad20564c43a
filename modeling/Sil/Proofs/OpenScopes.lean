import Mathlib
import Sil.Proofs.BlockScopes
import Sil.Proofs.StreamAcceptance

/-!
The scopes that are open before an instruction, told from the stream alone. A name that is not
hoisted stands in the scope of an open branch or function when it is declared directly inside of it;
so it is visible where the blocks around one of its declarations are still open. `Reshapes` says
what an instruction does to the open scopes, `Framed.succ` that they go with the open positions.
-/
namespace Sil

namespace Streams

section Defs

variable (is : List Instruction)

def UsesAt (k : Nat) (x : String) : Prop := ∃ i, is[k]? = some i ∧ .text x ∈ i.uses

def DeclaresAt (k : Nat) (x : String) : Prop := ∃ i, is[k]? = some i ∧ i.declares = some (.text x)

/-- The name is used where no declaration came before. -/
def UsedFirst (x : String) : Prop := ∃ k, UsesAt is k x ∧ ∀ j < k, ¬ DeclaresAt is j x

/-- What is open at `j` is still open at `k`. -/
def InScope (j k : Nat) : Prop := ∀ p, OpenAt is j p → OpenAt is k p

/-- The name is declared before a position, where exactly the given positions are open. -/
def DeclaredUnder (x : String) (k : Nat) (stack : List Nat) : Prop :=
  ∃ j < k, DeclaresAt is j x ∧ Stack is j stack

end Defs

variable {is : List Instruction} {i : Instruction} {x : String} {j k : Nat} {stack : List Nat}

theorem Stack.unique {stack' : List Nat} (h : Stack is k stack) (h' : Stack is k stack') :
    stack = stack' :=
  eq_of_descending h.sorted h'.sorted fun s => by rw [h.mem, h'.mem]

/-- In a descending list the members below a bound are at its end. -/
theorem filter_lt_suffix {l : List Nat} (h : l.Pairwise (· > ·)) (j : Nat) :
    l.filter (· < j) <:+ l := by
  induction l with
  | nil => exact List.suffix_rfl
  | cons t l ih =>
    by_cases ht : t < j
    · have hall : (t :: l).filter (· < j) = t :: l := by
        refine List.filter_eq_self.mpr fun s hs => ?_
        rcases List.mem_cons.mp hs with rfl | hs
        · simpa using ht
        · have := List.rel_of_pairwise_cons h hs
          simp only [decide_eq_true_eq]
          omega
      rw [hall]
    · rw [List.filter_cons_of_neg (by simpa using ht)]
      exact (ih h.of_cons).trans (List.suffix_cons t l)

/-- A declaration is in scope when the positions open at it are the outer ones of those open now. -/
theorem inScope_iff (hjk : j < k) (h : Stack is k stack) :
    InScope is j k ↔ ∃ outer, outer <:+ stack ∧ Stack is j outer := by
  constructor
  · intro hscope
    refine ⟨stack.filter (· < j), filter_lt_suffix h.sorted j, h.sorted.filter _, fun s => ?_⟩
    rw [List.mem_filter, h.mem, decide_eq_true_eq]
    constructor
    · rintro ⟨hs, hlt⟩
      exact hs.mono hjk.le hlt
    · intro hs
      exact ⟨hscope s hs, hs.1⟩
  · rintro ⟨outer, hsuffix, houter⟩ p hp
    exact (h.mem p).mp (hsuffix.subset ((houter.mem p).mpr hp))

section Position

variable (hi : is[k]? = some i)
include hi

theorem usesAt_iff : UsesAt is k x ↔ .text x ∈ i.uses := by simp [UsesAt, hi]

theorem declaresAt_iff : DeclaresAt is k x ↔ i.declares = some (.text x) := by simp [DeclaresAt, hi]

/-- A declaration neither opens nor ends anything. -/
theorem neutral_of_declares {n : Name} (hd : i.declares = some n) : Neutral is k := by
  unfold Instruction.declares at hd
  apply neutral_of_opcode hi <;> cases hop : i.opcode <;> simp_all [Opcode.isConditionalJump]

theorem declaredUnder_succ : DeclaredUnder is x (k + 1) stack ↔
    DeclaredUnder is x k stack ∨ (i.declares = some (.text x) ∧ Stack is k stack) := by
  simp only [DeclaredUnder, ← declaresAt_iff hi, Nat.lt_succ_iff_lt_or_eq, or_and_right, exists_or,
    exists_eq_left]

end Position

/-- A declaration is in scope right after it. -/
theorem DeclaresAt.inScope (h : DeclaresAt is k x) : InScope is k (k + 1) := by
  obtain ⟨i, hi, hd⟩ := h
  intro p hp
  rw [openAt_succ]
  exact .inr ⟨hp, (neutral_of_declares hi hd).not_span⟩

end Streams

namespace Naming
open Streams

variable {m : Naming} {i : Instruction} {x : String} {is : List Instruction} {k : Nat}

theorem mem_declared_step : .text x ∈ (m.step i).declared ↔
    .text x ∈ m.declared ∨ i.declares = some (.text x) := by
  have huses (ns : List Name) : (ns.foldl use m).declared = m.declared := by
    induction ns generalizing m with
    | nil => rfl
    | cons n ns ih =>
      rw [List.foldl_cons, ih, use]
      split <;> rfl
  unfold step
  cases hd : i.declares with
  | none => simp [huses]
  | some n =>
    dsimp only [declare]
    constructor
    · intro hx
      rcases Name.mem_addTo hx with hx | rfl
      · exact .inl hx
      · exact .inr rfl
    · unfold Name.addTo
      rintro (hx | hx)
      · split
        · exact hx
        · exact List.mem_append_left _ hx
      · cases hx
        split
        · rename_i hin
          exact Name.isIn_text.mp hin
        · exact List.mem_append_right _ (List.mem_singleton_self _)

theorem mem_hoisted_use {n : Name} : .text x ∈ (m.use n).hoisted ↔
    .text x ∈ m.hoisted ∨ (n = .text x ∧ .text x ∉ m.declared) := by
  unfold use
  split
  · rename_i hknown
    constructor
    · exact .inl
    · rintro (hx | ⟨rfl, hx⟩)
      · exact hx
      · rw [knows, Bool.or_eq_true, Name.isIn_text, Name.isIn_text] at hknown
        exact hknown.resolve_left hx
  · rename_i hnew
    rw [List.mem_append, List.mem_singleton]
    constructor
    · rintro (hx | rfl)
      · exact .inl hx
      · refine .inr ⟨rfl, fun hx => hnew ?_⟩
        rw [knows, Name.isIn_text.mpr hx, Bool.true_or]
    · rintro (hx | ⟨rfl, -⟩)
      · exact .inl hx
      · exact .inr rfl

theorem mem_hoisted_step : .text x ∈ (m.step i).hoisted ↔
    .text x ∈ m.hoisted ∨ (.text x ∈ i.uses ∧ .text x ∉ m.declared) := by
  have huses (ns : List Name) : .text x ∈ (ns.foldl use m).hoisted ↔
      .text x ∈ m.hoisted ∨ (.text x ∈ ns ∧ .text x ∉ m.declared) := by
    induction ns generalizing m with
    | nil => simp
    | cons n ns ih =>
      have hdeclared : (m.use n).declared = m.declared := by
        unfold use
        split <;> rfl
      rw [List.foldl_cons, ih, mem_hoisted_use, hdeclared, List.mem_cons, eq_comm]
      tauto
  unfold step
  cases hd : i.declares with
  | none => exact huses i.uses
  | some n =>
    have hnone : i.uses = [] := by
      unfold Instruction.declares at hd
      unfold Instruction.uses
      cases hop : i.opcode <;> simp_all
    simp [hnone, declare]

/-- What a prefix of a stream declares and hoists. -/
theorem mem_foldl_step (hk : k ≤ is.length) :
    (.text x ∈ ((is.take k).foldl step {}).declared ↔ ∃ j < k, DeclaresAt is j x) ∧
      (.text x ∈ ((is.take k).foldl step {}).hoisted ↔
        ∃ u < k, UsesAt is u x ∧ ∀ j < u, ¬ DeclaresAt is j x) := by
  induction k with
  | zero => simp
  | succ k ih =>
    have hi : is[k]? = some is[k] := List.getElem?_eq_getElem hk
    obtain ⟨hdeclared, hhoisted⟩ := ih (by omega)
    rw [List.take_add_one, hi, Option.toList_some, List.foldl_append, List.foldl_cons,
      List.foldl_nil, mem_declared_step, mem_hoisted_step, hdeclared, hhoisted, ← declaresAt_iff hi,
      ← usesAt_iff hi]
    constructor
    · exact exists_lt_succ.symm
    · rw [exists_lt_succ]
      push Not
      rfl

end Naming

namespace EmissionState
open Content

/-- The scopes of the open blocks, that of a function whose parameters are still being listed among
them. -/
def openScopes (s : EmissionState) : List (List Name) :=
  match s.header with
  | none => scopesAfter s.contents
  | some header => header.params.map Name.ofOption :: scopesAfter s.contents

variable {s : EmissionState}

theorem openScopes_of_header_none (h : s.header = none) :
    s.openScopes = scopesAfter s.contents := by
  simp [openScopes, h]

/-- There is one scope for each open block and one for the program. -/
theorem length_openScopes (hn : s.IsNested .cpp) (hs : ScopesAgree s) :
    s.openScopes.length = s.control.enter.blocks.length + 1 := by
  have hheight := hs.height
  have hdepth := nested_length hn
  cases hh : s.header with
  | none =>
    rw [openScopes_of_header_none hh, Streams.enter_of_header_none (c := s.control) hh]
    simp only [control, List.length_map]
    omega
  | some header =>
    have henter : s.control.enter.blocks = (.function, header.name) :: s.control.blocks := by
      have hc : s.control.header = some header := hh
      simp [Control.enter, hc]
    rw [henter]
    simp only [openScopes, hh, List.length_cons, control, List.length_map]
    omega

end EmissionState

namespace Emission
open EmissionState Content Streams

variable {s s' t : EmissionState} {i : Instruction} {upcoming : Option Instruction}
  {is : List Instruction} {k : Nat} {x : String}

inductive Reshapes (i : Instruction) (s s' : EmissionState) : Prop
  | keep (hd : i.declares = none) (hs : s'.openScopes = s.openScopes)
  | declare {n : Name} (hd : i.declares = some n)
      (hs : s'.openScopes = s.openScopes.modifyHead (· ++ [n]))
  | again {n : Name} (hd : i.declares = some n) (hs : s'.openScopes = s.openScopes)
      (hold : ∀ inner outer, s.openScopes = inner :: outer → n ∈ inner ∨ n ∈ s.naming.hoisted)
  | push (hd : i.declares = none) (hs : s'.openScopes = [] :: s.openScopes)
  | pop (hd : i.declares = none) (hs : s'.openScopes = s.openScopes.tail)

theorem Enters.openScopes_eq (h : Enters s s') : s'.openScopes = s.openScopes := by
  cases h with
  | nothing => rfl
  | @function header hh =>
    rw [openScopes_of_header_none rfl]
    simp [openScopes, hh, contents, EmissionState.openBlock, EmissionState.writeStatement,
      EmissionState.write, scope]

theorem contents_noteReads {b : Backend} {operands : List Operand}
    (h : noteReads b s operands = .ok t) : t.contents = s.contents :=
  noteReads_frame (fun _ n type => contents_noteUse b n type) h

theorem declares_eq_none (hd : i.opcode ≠ .decl) (hp : i.opcode ≠ .param) : i.declares = none := by
  unfold Instruction.declares
  cases hop : i.opcode <;> simp_all

/-- What the lines do to the scopes, while no function is pending. -/
theorem openScopes_eq_of_header_none {f : List (List Name) → List (List Name)}
    (hs : s.header = none) (ht : t.header = none)
    (hc : scopesAfter t.contents = f (scopesAfter s.contents)) :
    t.openScopes = f s.openScopes := by
  rw [openScopes_of_header_none hs, openScopes_of_header_none ht, hc]

theorem exists_block_of_closes {label : Option String} (h : s.control.closes label) :
    ∃ block rest, s.blocks = block :: rest := by
  cases hb : s.blocks with
  | nil => simp [Control.closes, EmissionState.control, hb] at h
  | cons block rest => exact ⟨block, rest, rfl⟩

theorem exists_block_of_closesBefore (h : s.control.closesBefore upcoming) :
    ∃ block rest, s.blocks = block :: rest := by
  cases upcoming with
  | none => cases h
  | some next =>
    rw [Control.closesBefore, Bool.and_eq_true] at h
    exact exists_block_of_closes h.2

theorem header_closeBlock (b : Backend) : (s.closeBlock b).header = s.header :=
  congrArg Control.header (control_closeBlock b s)

theorem Performs.reshapes (h : Performs .cpp upcoming s i s') (hi : i.isComplete)
    (hheader : i.opcode ≠ .param → s.header = none) (hs : ScopesAgree s) : Reshapes i s s' := by
  cases h with
  | declareUntyped hb => cases hb
  | declareTyped _ ho =>
    have hh := hheader (by simp [ho])
    refine .declare (by simp [Instruction.declares, ho]; rfl)
      (openScopes_eq_of_header_none hh hh ?_)
    rw [contents_writeStatement, scopesAfter_append]
    rfl
  | declareAgain _ ho hold =>
    have hh := hheader (by simp [ho])
    refine .again (by simp [Instruction.declares, ho]; rfl) rfl fun inner outer hopen => ?_
    obtain ⟨name, hname⟩ : ∃ name, i.name = some name := by
      simp only [Instruction.isComplete, ho, Bool.and_eq_true] at hi
      exact Option.isSome_iff_exists.mp hi.2
    rw [hname] at hold ⊢
    rw [openScopes_of_header_none hh] at hopen
    have hlevel := hs.level 0 inner (by rw [hopen]; rfl) (.text name) (Name.isIn_text.mp hold)
    exact hlevel.imp_right And.right
  | mov ho _ hreads | binary ho _ hreads =>
    have hh := hheader (by simp [ho])
    refine .keep (declares_eq_none (by simp [ho]) (by simp [ho]))
      (openScopes_eq_of_header_none (f := id) hh ?_ ?_)
    · have hheader' := (congrArg Control.header (control_noteReads hreads)).trans hh
      exact (congrArg Control.header (control_noteUse .cpp _ _ _)).trans hheader'
    · rw [contents_writeStatement, scopesAfter_append, contents_noteUse, contents_noteReads hreads]
      rfl
  | cmp ho _ hreads =>
    have hh := hheader (by simp [ho])
    have hcontents := contents_noteReads hreads
    have hheader' := congrArg Control.header (control_noteReads hreads)
    exact .keep (declares_eq_none (by simp [ho]) (by simp [ho]))
      (openScopes_eq_of_header_none (f := id) hh (hheader'.trans hh) (congrArg _ hcontents))
  | ret ho hreads =>
    have hh := hheader (by simp [ho])
    have hheader' := congrArg Control.header (control_noteReads hreads)
    refine .keep (declares_eq_none (by simp [ho]) (by simp [ho]))
      (openScopes_eq_of_header_none (f := id) hh (hheader'.trans hh) ?_)
    rw [contents_writeStatement, scopesAfter_append, contents_noteReads hreads]
    rfl
  | branch ho =>
    have hd : i.opcode ≠ .decl := ne_of_isConditionalJump ho rfl
    have hp : i.opcode ≠ .param := ne_of_isConditionalJump ho rfl
    have hh := hheader hp
    refine .push (declares_eq_none hd hp) (openScopes_eq_of_header_none (f := ([] :: ·)) hh hh ?_)
    rw [contents_openBlock, scopesAfter_append]
    rfl
  | jump ho | label ho =>
    have hh := hheader (by simp [ho])
    refine .keep (declares_eq_none (by simp [ho]) (by simp [ho]))
      (openScopes_eq_of_header_none (f := id) hh hh ?_)
    rw [contents_write, scopesAfter_append]
    rfl
  | jumpClosing ho hclose =>
    have hh := hheader (by simp [ho])
    obtain ⟨block, rest, hblocks⟩ := exists_block_of_closesBefore hclose
    refine .pop (declares_eq_none (by simp [ho]) (by simp [ho]))
      (openScopes_eq_of_header_none hh ((header_closeBlock _).trans hh) ?_)
    have hclosed := scopesAfter_closeBlock
      (s := (awaitLabel s i.label).write (.jumpMark (Name.ofOption i.label))) hblocks
    rw [hclosed, contents_write, scopesAfter_append]
    rfl
  | labelClosing ho _ hclose =>
    have hh := hheader (by simp [ho])
    obtain ⟨block, rest, hblocks⟩ := exists_block_of_closes hclose
    refine .pop (declares_eq_none (by simp [ho]) (by simp [ho]))
      (openScopes_eq_of_header_none hh ((header_closeBlock .cpp).trans hh) ?_)
    rw [contents_write, scopesAfter_append]
    exact scopesAfter_closeBlock hblocks
  | endFunc ho hblocks =>
    have hh := hheader (by simp [ho])
    exact .pop (declares_eq_none (by simp [ho]) (by simp [ho]))
      (openScopes_eq_of_header_none hh ((header_closeBlock _).trans hh)
      (scopesAfter_closeBlock hblocks))
  | func ho =>
    have hh := hheader (by simp [ho])
    refine .push (declares_eq_none (by simp [ho]) (by simp [ho])) ?_
    rw [openScopes_of_header_none hh]
    rfl
  | param ho hheader =>
    refine .declare (by simp [Instruction.declares, ho]; rfl) ?_
    simp only [openScopes, hheader, List.map_append, List.modifyHead_cons]
    rfl

theorem Reshapes.congr {t' : EmissionState} (h : Reshapes i t t') (hs : t.openScopes = s.openScopes)
    (hhoisted : t.naming.hoisted = s.naming.hoisted) (hs' : s'.openScopes = t'.openScopes) :
    Reshapes i s s' := by
  cases h with
  | keep hd h => exact .keep hd (by rw [hs', h, hs])
  | declare hd h => exact .declare hd (by rw [hs', h, hs])
  | again hd h hold =>
    rw [hs, hhoisted] at hold
    exact .again hd (by rw [hs', h, hs]) hold
  | push hd h => exact .push hd (by rw [hs', h, hs])
  | pop hd h => exact .pop hd (by rw [hs', h, hs])

theorem reshapes_step (h : step .cpp upcoming s i = .ok s') (hi : i.isComplete)
    (hs : ScopesAgree s) : Reshapes i s s' := by
  obtain ⟨t, u, henter, -, hperforms, rfl⟩ := step_cases h
  rcases henter with ⟨hparam, rfl⟩ | ⟨-, henters⟩
  · exact (hperforms.reshapes hi (absurd hparam) hs).congr rfl rfl rfl
  · have hreshapes := hperforms.reshapes hi (fun _ => henters.header_eq_none)
      (henters.scopesAgree hs)
    exact hreshapes.congr henters.openScopes_eq (congrArg Naming.hoisted henters.naming_eq) rfl

variable {stack : List Nat}

variable (is) in
/-- The open scopes belong to the open positions: a name that is not hoisted stands in the scope of
a position when it is declared where that position is the innermost one. -/
structure Framed (k : Nat) (s : EmissionState) (stack : List Nat) : Prop where
  unclosed : Unclosed is k stack
  blocks : s.control.enter.blocks = stack.map (frame is)
  scopes : ∀ x, .text x ∉ s.naming.hoisted →
    s.openScopes.map (.text x ∈ ·) = stack.tails.map (DeclaredUnder is x k)

theorem tails_eq_cons (stack : List Nat) :
    ∃ outer, stack.tails = stack :: outer ∧ ∀ inner ∈ outer, inner ≠ stack := by
  cases stack with
  | nil => exact ⟨[], rfl, by simp⟩
  | cons t rest =>
    refine ⟨rest.tails, rfl, fun inner hinner heq => ?_⟩
    have hle := ((List.mem_tails _ _).mp hinner).length_le
    rw [heq, List.length_cons] at hle
    omega

theorem declaredUnder_succ_of_none (hi : is[k]? = some i) (hd : i.declares = none) :
    DeclaredUnder is x (k + 1) = DeclaredUnder is x k := by
  funext stack
  rw [declaredUnder_succ hi, hd]
  simp

/-- A declaration adds its name to the innermost scope and to no other. -/
theorem scopes_declare {n : Name} {inner inner' : List Name} {outer : List (List Name)}
    (hi : is[k]? = some i) (hd : i.declares = some n) (hk : Stack is k stack)
    (hold : (inner :: outer).map (.text x ∈ ·) = stack.tails.map (DeclaredUnder is x k))
    (hinner : .text x ∈ inner' ↔ .text x ∈ inner ∨ n = .text x) :
    (inner' :: outer).map (.text x ∈ ·) = stack.tails.map (DeclaredUnder is x (k + 1)) := by
  obtain ⟨below, htails, hbelow⟩ := tails_eq_cons stack
  rw [htails, List.map_cons, List.map_cons, List.cons.injEq] at hold ⊢
  constructor
  · rw [eq_iff_iff, hinner, declaredUnder_succ hi, ← eq_iff_iff.mp hold.1, hd, Option.some.injEq]
    simp [hk]
  · rw [hold.2]
    refine List.map_congr_left fun τ hτ => ?_
    have hother : ¬ Stack is k τ := fun hs => hbelow τ hτ (hs.unique hk)
    rw [eq_iff_iff, declaredUnder_succ hi]
    simp [hother]

/-- The open scopes go with the open positions from one instruction to the next. -/
theorem Framed.succ (h : Framed is k s stack) (hi : is[k]? = some i) (hd : DistinctBranches is)
    (hfits : ∀ m j, m ≤ k → is[m]? = some j → Fits is m j)
    (hmoves : Control.Moves is[k + 1]? s.control i s'.control) (hreshapes : Reshapes i s s')
    (hhoisted : ∀ x, .text x ∈ s.naming.hoisted → .text x ∈ s'.naming.hoisted)
    (hlength : s.openScopes.length = s.control.enter.blocks.length + 1)
    (hlength' : s'.openScopes.length = s'.control.enter.blocks.length + 1) :
    ∃ stack', Framed is (k + 1) s' stack' := by
  obtain ⟨stack', hunclosed, hblocks, hshape⟩ :=
    unclosed_succ hi h.unclosed h.blocks hd hfits hmoves
  refine ⟨stack', hunclosed, hblocks, fun x hx => ?_⟩
  have hold := h.scopes x fun hx' => hx (hhoisted x hx')
  rw [h.blocks, List.length_map] at hlength
  rw [hblocks, List.length_map] at hlength'
  obtain ⟨inner, outer, hopen⟩ : ∃ inner outer, s.openScopes = inner :: outer :=
    List.exists_cons_of_length_eq_add_one hlength
  -- How many scopes there are tells what happened to the positions.
  have hsame (hs : s'.openScopes.length = s.openScopes.length) : stack' = stack := by
    rcases hshape with heq | rfl | ⟨t, rfl⟩
    · exact heq
    · rw [List.length_cons] at hlength'
      omega
    · rw [List.length_cons] at hlength
      omega
  have hstack {n : Name} (hdeclares : i.declares = some n) : Stack is k stack :=
    h.unclosed.exact (neutral_of_declares hi hdeclares).label
  cases hreshapes with
  | keep hdeclares hs =>
    rw [hsame (by rw [hs]), hs, declaredUnder_succ_of_none hi hdeclares]
    exact hold
  | declare hdeclares hs =>
    rw [hsame (by rw [hs, List.length_modifyHead]), hs, hopen, List.modifyHead_cons]
    rw [hopen] at hold
    refine scopes_declare hi hdeclares (hstack hdeclares) hold ?_
    rw [List.mem_append, List.mem_singleton, eq_comm]
  | again hdeclares hs hagain =>
    rw [hsame (by rw [hs]), hs, hopen]
    rw [hopen] at hold
    refine scopes_declare hi hdeclares (hstack hdeclares) hold ⟨.inl, ?_⟩
    rintro (hinner | rfl)
    · exact hinner
    · exact (hagain inner outer hopen).resolve_right fun hx' => hx (hhoisted x hx')
  | push hdeclares hs =>
    rw [hs, List.length_cons] at hlength'
    rcases hshape with rfl | rfl | ⟨t, rfl⟩
    · omega
    · -- Nothing is declared yet where the new position is open.
      have hnew : ¬ DeclaredUnder is x k (k :: stack) := by
        rintro ⟨j, hj, -, hstack⟩
        have hlt := hstack.head_open.1
        omega
      rw [hs, List.map_cons, List.tails_cons, List.map_cons,
        declaredUnder_succ_of_none hi hdeclares, hold]
      simp [hnew]
    · rw [List.length_cons] at hlength
      omega
  | pop hdeclares hs =>
    rw [hs, hopen, List.tail_cons] at hlength'
    rw [hopen, List.length_cons] at hlength
    rcases hshape with rfl | rfl | ⟨t, rfl⟩
    · omega
    · rw [List.length_cons] at hlength'
      omega
    · rw [hs, hopen, List.tail_cons, declaredUnder_succ_of_none hi hdeclares]
      rw [hopen, List.tails_cons, List.map_cons, List.map_cons, List.cons.injEq] at hold
      exact hold.2

/-- A name that is not hoisted is visible while a declaration of it is in scope. -/
theorem Framed.visible_iff (h : Framed is k s stack) (hk : ¬ OpAt is k .label)
    (hx : .text x ∉ s.naming.hoisted) : (∃ scope ∈ s.openScopes, .text x ∈ scope) ↔
      ∃ j < k, DeclaresAt is j x ∧ InScope is j k := by
  have hstack := h.unclosed.exact hk
  calc (∃ scope ∈ s.openScopes, .text x ∈ scope)
    _ ↔ ∃ p ∈ s.openScopes.map (.text x ∈ ·), p := by
      simp only [List.mem_map, exists_exists_and_eq_and]
    _ ↔ ∃ outer, outer <:+ stack ∧ DeclaredUnder is x k outer := by
      simp only [h.scopes x hx, List.mem_map, exists_exists_and_eq_and, List.mem_tails]
    _ ↔ ∃ j < k, DeclaresAt is j x ∧ ∃ outer, outer <:+ stack ∧ Stack is j outer := by
      constructor
      · rintro ⟨outer, hsuffix, j, hj, hdeclares, houter⟩
        exact ⟨j, hj, hdeclares, outer, hsuffix, houter⟩
      · rintro ⟨j, hj, hdeclares, outer, hsuffix, houter⟩
        exact ⟨outer, hsuffix, j, hj, hdeclares, houter⟩
    _ ↔ ∃ j < k, DeclaresAt is j x ∧ InScope is j k := by
      refine exists_congr fun j => and_congr_right fun hj => ?_
      rw [inScope_iff hj hstack]

end Emission
end Sil
