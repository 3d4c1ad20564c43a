import Mathlib
import Sil.Proofs.LoweredEmission
import Sil.Proofs.LoweredStructure
import Sil.Proofs.OpenScopes

/-!
When the typed text is well scoped. A name that is used before it is declared is hoisted and visible
everywhere. Any other name is visible as long as the blocks around one of its declarations are open,
and nothing hoists it when they close. So the text is well scoped exactly when every use of such a
name stands inside the blocks of an earlier declaration.
-/
namespace Sil

namespace Emission
open EmissionState Content Streams

variable {s s' t : EmissionState} {i : Instruction} {upcoming : Option Instruction}
  {is : List Instruction} {k : Nat} {x : String} {top : List Name}

/-- The lines so far are well scoped, and so is the operand that waits for its branch. -/
def Supported (top : List Name) (s : EmissionState) : Prop :=
  Scoped top s.contents ∧
    ∀ n ∈ (s.tested.bind Operand.name?).toList, Visible top s.openScopes n

theorem supported_iff_of_untested (h : s.tested = none) :
    Supported top s ↔ Scoped top s.contents := by
  simp [Supported, h]

theorem Enters.supported_iff (h : Enters s s') : Supported top s' ↔ Supported top s := by
  have hopen := h.openScopes_eq
  cases h with
  | nothing => rfl
  | @function header hh =>
    unfold Supported
    rw [hopen]
    refine and_congr_left fun _ => ?_
    have hline : EmissionState.contents
        { ({ s with header := none } : EmissionState).openBlock .function header.name
            (.openFunction (Name.ofOption header.name) (header.params.map Name.ofOption)) with
          scopes := ScopeMap.setNames (s.depth + 1)
            ((header.params.map Name.ofOption).foldl (fun ns n => n.addTo ns) []) s.scopes } =
        s.contents ++
          [.openFunction (Name.ofOption header.name) (header.params.map Name.ofOption)] :=
      contents_openBlock .function header.name _
    rw [hline, scoped_append]
    simp [Content.names]

theorem filterMap_singleton_name (o : Operand) : [o].filterMap Operand.name? = o.name?.toList := by
  cases h : o.name? <;> simp [h]

/-- The names that a complete assignment uses are those on its line. -/
theorem uses_of_mov {source : Operand} {rest : List Operand} (hi : i.isComplete)
    (ho : i.opcode = .mov) (h : i.operands = source :: rest) :
    i.uses = (Content.assign (Name.ofOption i.dest) (.copy source)).names := by
  simp only [Instruction.isComplete, ho, h, Bool.and_eq_true, beq_iff_eq] at hi
  obtain rfl : rest = [] := by simpa using hi.2.2
  simp only [Instruction.uses, ho, h, filterMap_singleton_name]
  rfl

theorem uses_of_cmp {test : Operand} {rest : List Operand} (hi : i.isComplete)
    (ho : i.opcode = .cmp) (h : i.operands = test :: rest) :
    i.uses = test.name?.toList := by
  simp only [Instruction.isComplete, ho, h, Bool.and_eq_true, beq_iff_eq] at hi
  obtain rfl : rest = [] := by simpa using hi.2
  simp only [Instruction.uses, ho, h, filterMap_singleton_name]

theorem uses_of_ret (hi : i.isComplete) (ho : i.opcode = .ret) (inFunction : Bool) :
    i.uses = (Content.ret i.operands.head? inFunction).names := by
  simp only [Instruction.isComplete, ho, Bool.and_eq_true, decide_eq_true_eq] at hi
  cases h : i.operands with
  | nil => simp [Instruction.uses, ho, h, Content.names]
  | cons value rest =>
    obtain rfl : rest = [] := by simpa [h] using hi.2
    simp only [Instruction.uses, ho, h, filterMap_singleton_name]
    rfl

/-- An instruction that writes one line with the names that it uses. -/
theorem supported_of_line {c : Content} (hs : s.tested = none) (hs' : s'.tested = none)
    (hh : s.header = none) (hc : s'.contents = s.contents ++ [c]) (huses : i.uses = c.names) :
    Supported top s' ↔ Supported top s ∧ ∀ n ∈ i.uses, Visible top s.openScopes n := by
  rw [supported_iff_of_untested hs, supported_iff_of_untested hs', openScopes_of_header_none hh, hc,
    scoped_append, huses]

/-- An instruction that uses no names. -/
theorem supported_of_uses_nil (hs : s.tested = none) (hs' : s'.tested = none)
    (hc : Scoped top s'.contents ↔ Scoped top s.contents) (huses : i.uses = []) :
    Supported top s' ↔ Supported top s ∧ ∀ n ∈ i.uses, Visible top s.openScopes n := by
  rw [supported_iff_of_untested hs, supported_iff_of_untested hs', hc, huses]
  simp

theorem tested_closeBlock (b : Backend) : (s.closeBlock b).tested = s.tested :=
  congrArg Control.tested (control_closeBlock b s)

theorem scoped_closeBlock (top : List Name) {block : Block} {rest : List Block}
    (h : s.blocks = block :: rest) :
    Scoped top (s.closeBlock .cpp).contents ↔ Scoped top s.contents := by
  rw [contents_closeBlock h, scoped_append]
  simp [Content.names]

/-- A complete instruction keeps the text well scoped when the names that it uses are visible. -/
theorem Performs.supported_iff (h : Performs .cpp upcoming s i s') (hi : i.isComplete)
    (hheader : i.opcode ≠ .param → s.header = none)
    (htested : s.tested = none ∨ i.opcode.isConditionalJump) :
    Supported top s' ↔ Supported top s ∧ ∀ n ∈ i.uses, Visible top s.openScopes n := by
  have huntested (ho : i.opcode.isConditionalJump = false) : s.tested = none :=
    htested.resolve_right (by simp [ho])
  cases h with
  | declareUntyped hb => cases hb
  | declareTyped _ ho =>
    have hs := huntested (by rw [ho]; rfl)
    exact supported_of_line hs hs (hheader (by simp [ho])) (contents_writeStatement _)
      (by simp [Instruction.uses, ho, Content.names])
  | declareAgain _ ho =>
    have hs := huntested (by rw [ho]; rfl)
    exact supported_of_uses_nil hs hs .rfl (by simp [Instruction.uses, ho])
  | mov ho hsource hreads =>
    have hs := huntested (by rw [ho]; rfl)
    have hs' := (congrArg Control.tested (control_noteReads hreads)).trans hs
    refine supported_of_line hs ?_ (hheader (by simp [ho])) ?_ (uses_of_mov hi ho hsource)
    · exact (congrArg Control.tested (control_noteUse .cpp _ _ _)).trans hs'
    · rw [contents_writeStatement, contents_noteUse, contents_noteReads hreads]
  | @binary _ op left right ho hsource hreads =>
    have hs := huntested (by rw [ho]; rfl)
    have hs' := (congrArg Control.tested (control_noteReads hreads)).trans hs
    have huses : i.uses =
        (Content.assign (Name.ofOption i.dest) (.operation op left right)).names := by
      simp only [Instruction.uses, ho, hsource]
      rfl
    refine supported_of_line hs ?_ (hheader (by simp [ho])) ?_ huses
    · exact (congrArg Control.tested (control_noteUse .cpp _ _ _)).trans hs'
    · rw [contents_writeStatement, contents_noteUse, contents_noteReads hreads]
  | @cmp t test rest ho htest hreads =>
    -- The operand stands on the line of the branch that comes next.
    have hs := huntested (by rw [ho]; rfl)
    have hh := hheader (by simp [ho])
    have hcontents := contents_noteReads hreads
    have hheader' := congrArg Control.header (control_noteReads hreads)
    have hopen : t.openScopes = s.openScopes :=
      openScopes_eq_of_header_none (f := id) hh (hheader'.trans hh) (congrArg scopesAfter hcontents)
    rw [supported_iff_of_untested hs, uses_of_cmp hi ho htest, ← hcontents, ← hopen]
    rfl
  | @branch test ho htest =>
    have hp : i.opcode ≠ .param := ne_of_isConditionalJump ho rfl
    have huses : i.uses = [] := by
      unfold Instruction.uses
      cases hop : i.opcode <;> simp_all [Opcode.isConditionalJump]
    rw [supported_iff_of_untested rfl, contents_openBlock, scoped_append, huses, Supported, htest,
      openScopes_of_header_none (hheader hp)]
    exact (and_iff_left (by simp)).symm
  | jump ho =>
    have hs := huntested (by rw [ho]; rfl)
    exact supported_of_line hs hs (hheader (by simp [ho])) (contents_write _)
      (by simp [Instruction.uses, ho, Content.names])
  | label ho =>
    have hs := huntested (by rw [ho]; rfl)
    exact supported_of_line hs hs (hheader (by simp [ho])) (contents_write _)
      (by simp [Instruction.uses, ho, Content.names])
  | jumpClosing ho hclose =>
    have hs := huntested (by rw [ho]; rfl)
    obtain ⟨block, rest, hblocks⟩ := exists_block_of_closesBefore hclose
    refine supported_of_uses_nil hs ((tested_closeBlock .cpp).trans hs) ?_
      (by simp [Instruction.uses, ho])
    have hclosed := scoped_closeBlock top
      (s := (awaitLabel s i.label).write (.jumpMark (Name.ofOption i.label))) hblocks
    rw [hclosed, contents_write, scoped_append]
    simp [Content.names]
    rfl
  | labelClosing ho _ hclose =>
    have hs := huntested (by rw [ho]; rfl)
    obtain ⟨block, rest, hblocks⟩ := exists_block_of_closes hclose
    refine supported_of_uses_nil hs ((tested_closeBlock .cpp).trans hs) ?_
      (by simp [Instruction.uses, ho])
    rw [contents_write, scoped_append, ← scoped_closeBlock top hblocks]
    simp [Content.names]
    rfl
  | endFunc ho hblocks =>
    have hs := huntested (by rw [ho]; rfl)
    exact supported_of_uses_nil hs ((tested_closeBlock .cpp).trans hs)
      (scoped_closeBlock top hblocks)
      (by simp [Instruction.uses, ho])
  | func ho | param ho =>
    have hs := huntested (by rw [ho]; rfl)
    exact supported_of_uses_nil hs hs .rfl (by simp [Instruction.uses, ho])
  | @ret t ho hreads =>
    have hs := huntested (by rw [ho]; rfl)
    refine supported_of_line hs ((congrArg Control.tested (control_noteReads hreads)).trans hs)
      (hheader (by simp [ho])) ?_
      (uses_of_ret hi ho t.inFunction)
    rw [contents_writeStatement, contents_noteReads hreads]

theorem supported_step (h : step .cpp upcoming s i = .ok s') (hi : i.isComplete) :
    Supported top s' ↔ Supported top s ∧ ∀ n ∈ i.uses, Visible top s.openScopes n := by
  obtain ⟨t, u, henter, htested, hperforms, rfl⟩ := step_cases h
  rcases henter with ⟨hparam, rfl⟩ | ⟨-, henters⟩
  · exact hperforms.supported_iff hi (absurd hparam) htested
  · rw [← henters.supported_iff, ← henters.openScopes_eq]
    exact hperforms.supported_iff hi (fun _ => henters.header_eq_none) htested

theorem exists_text_of_uses {n : Name} (hi : i.isComplete) (hn : n ∈ i.uses) :
    ∃ x, n = .text x := by
  simp only [Instruction.isComplete, Bool.and_eq_true, List.all_eq_true] at hi
  obtain ⟨hplain, hfields⟩ := hi
  have hread (hn : n ∈ i.operands.filterMap Operand.name?) : ∃ x, n = .text x := by
    obtain ⟨o, ho, hname⟩ := List.mem_filterMap.mp hn
    have hp := hplain o ho
    unfold Operand.isPlain at hp
    split at hp
    · cases hname
    · exact ⟨_, (Option.some.inj hname).symm⟩
    · exact ⟨_, (Option.some.inj hname).symm⟩
    · cases hp
  have hassign (hdest : i.dest.isSome)
      (hn : n ∈ i.operands.filterMap Operand.name? ++ [Name.ofOption i.dest]) :
      ∃ x, n = .text x := by
    obtain ⟨dest, hdest⟩ := Option.isSome_iff_exists.mp hdest
    rcases List.mem_append.mp hn with hn | hn
    · exact hread hn
    · rw [hdest, List.mem_singleton] at hn
      exact ⟨dest, hn⟩
  unfold Instruction.uses at hn
  cases hop : i.opcode <;> simp only [hop, Bool.and_eq_true, List.not_mem_nil] at hn hfields
  case mov | binary => exact hassign hfields.1 hn
  case cmp | ret => exact hread hn

variable (is) in
structure Reached (k : Nat) (s : EmissionState) : Prop where
  nested : s.IsNested .cpp
  agree : ScopesAgree s
  named : HeaderNamed s.control
  naming : s.naming = (is.take k).foldl Naming.step {}
  framed : ∃ stack, Framed is k s stack

theorem reached_initial : Reached is 0 (initial .cpp) where
  nested := rfl
  agree := ScopesAgree.initial
  named header hh := by cases hh
  naming := rfl
  framed := by
    refine ⟨[], .inl ⟨List.Pairwise.nil, fun s => by simp [OpenAt]⟩, rfl, fun x _ => ?_⟩
    have hopen : (initial .cpp).openScopes = [[]] := rfl
    rw [hopen]
    simp [DeclaredUnder]

theorem Reached.succ (h : Reached is k s) (hcomplete : ∀ i ∈ is, i.isComplete)
    (hd : DistinctBranches is) (hfits : ∀ m j, is[m]? = some j → Fits is m j) (hi : is[k]? = some i)
    (hstep : step .cpp is[k + 1]? s i = .ok s') : Reached is (k + 1) s' := by
  have hci := hcomplete i (List.mem_of_getElem? hi)
  have hmoves : Control.Moves is[k + 1]? s.control i s'.control := by
    have hnext (j : Instruction) (hj : is[k + 1]? = some j) := hcomplete j (List.mem_of_getElem? hj)
    have hcontrol := control_step .cpp hnext h.named hci
    rw [hstep] at hcontrol
    exact Control.moves_of_step hcontrol.symm
  have hnested := isNested_step hstep h.nested
  have hagree := scopesAgree_step hstep h.nested h.agree
  have hhoisted (x : String) (hx : .text x ∈ s.naming.hoisted) : .text x ∈ s'.naming.hoisted := by
    rw [naming_step hstep, Naming.mem_hoisted_step]
    exact .inl hx
  obtain ⟨stack, hframed⟩ := h.framed
  refine ⟨hnested, hagree, headerNamed_of_moves hmoves h.named hci, ?_, ?_⟩
  · rw [naming_step hstep, h.naming, List.take_add_one, hi, Option.toList_some, List.foldl_append]
    rfl
  · exact hframed.succ hi hd (fun m j _ hj => hfits m j hj) hmoves (reshapes_step hstep hci h.agree)
      hhoisted (length_openScopes h.nested h.agree) (length_openScopes hnested hagree)

/-- The use of a name at a position is covered: the name is hoisted, or a declaration is in
scope. -/
def Covered (is : List Instruction) (k : Nat) (x : String) : Prop :=
  UsedFirst is x ∨ ∃ j < k, DeclaresAt is j x ∧ InScope is j k

theorem Reached.visible_iff (h : Reached is k s) (hi : is[k]? = some i) (hci : i.isComplete)
    (htop : ∀ x, .text x ∈ top ↔ UsedFirst is x) :
    (∀ n ∈ i.uses, Visible top s.openScopes n) ↔ ∀ x, UsesAt is k x → Covered is k x := by
  have hk : k ≤ is.length := (lt_length_of_getElem? hi).le
  have hpoint (x : String) (hx : .text x ∈ i.uses) :
      Visible top s.openScopes (.text x) ↔ Covered is k x := by
    unfold Visible Covered
    rw [htop]
    by_cases hfirst : UsedFirst is x
    · simp [hfirst]
    · obtain ⟨stack, hframed⟩ := h.framed
      refine or_congr_right (hframed.visible_iff ?_ ?_)
      · rw [opAt_iff hi]
        intro ho
        simp [Instruction.uses, ho] at hx
      · rw [h.naming, (Naming.mem_foldl_step hk).2]
        rintro ⟨u, -, hu⟩
        exact hfirst ⟨u, hu⟩
  constructor
  · intro hvisible x hx
    rw [usesAt_iff hi] at hx
    exact (hpoint x hx).mp (hvisible _ hx)
  · intro hcovered n hn
    obtain ⟨x, rfl⟩ := exists_text_of_uses hci hn
    exact (hpoint x hn).mpr (hcovered x ((usesAt_iff hi).mpr hn))

/-- The typed text of a structured stream is well scoped when every use of a name is covered. -/
theorem isWellScoped_iff (hcomplete : ∀ i ∈ is, i.isComplete) (hd : DistinctBranches is)
    (hfits : ∀ m j, is[m]? = some j → Fits is m j) (h : emit .cpp is = .ok s)
    (hend : s.tested = none) :
    s.IsWellScoped ↔ ∀ k x, UsesAt is k x → Covered is k x := by
  obtain ⟨hafter, -⟩ := after_length_of_emit h
  have htop (x : String) : .text x ∈ s.naming.hoisted ↔ UsedFirst is x := by
    rw [naming_after le_rfl hafter]
    refine (Naming.mem_foldl_step le_rfl).2.trans ⟨?_, ?_⟩
    · rintro ⟨u, -, hu⟩
      exact ⟨u, hu⟩
    · rintro ⟨u, ⟨i, hi, hx⟩, hu⟩
      exact ⟨u, lt_length_of_getElem? hi, ⟨i, hi, hx⟩, hu⟩
  have hrun : Reached is is.length s ∧ (Supported s.naming.hoisted s ↔
      ∀ u < is.length, ∀ x, UsesAt is u x → Covered is u x) := by
    refine after_invariant (P := fun k t => Reached is k t ∧ (Supported s.naming.hoisted t ↔
      ∀ u < k, ∀ x, UsesAt is u x → Covered is u x)) ?_ ?_ le_rfl hafter
    · exact ⟨reached_initial, by simp [Supported, EmissionState.initial, Scoped, contents]⟩
    · rintro k i t t' hi ⟨ht, hlines⟩ hstep
      have hci := hcomplete i (List.mem_of_getElem? hi)
      refine ⟨ht.succ hcomplete hd hfits hi hstep, ?_⟩
      rw [supported_step hstep hci, hlines, ht.visible_iff hi hci htop, Nat.forall_lt_succ_right]
  rw [IsWellScoped, ← supported_iff_of_untested hend, hrun.2]
  constructor
  · rintro hall k x ⟨i, hi, hx⟩
    exact hall k (lt_length_of_getElem? hi) x ⟨i, hi, hx⟩
  · intro hall k _
    exact hall k

end Emission

open Emission Streams Lowering

/-- The typed text of a tree that lowers is well scoped exactly when each name that it uses was used
before any declaration of it, so that it is hoisted, or stands at every use inside the blocks of an
earlier declaration. -/
theorem typed_text_wellScoped_iff {limits : Limits} (tree : Node) {code : List Instruction}
    (h : tree.lower limits = .ok code) {s : EmissionState} (hs : emit .cpp code = .ok s) :
    s.IsWellScoped ↔ ∀ k x, UsesAt code k x →
      (∃ u, UsesAt code u x ∧ ∀ j < u, ¬ DeclaresAt code j x) ∨
        ∃ j < k, DeclaresAt code j x ∧ InScope code j k := by
  obtain ⟨c, hlowers⟩ := lowers_of_lower h
  have hdistinct := distinctBranches_of_nodup (branchTargets_nodup hlowers)
  have hfits (m : Nat) (j : Instruction) (hj : code[m]? = some j) : Fits code m j :=
    fits_of_wellStructured (wellStructured_of_lower h) hdistinct hj
  have htested : s.tested = none := by
    obtain ⟨t, ht, hsettled⟩ | ⟨herror, -⟩ := emit_of_lower h .cpp
    · cases hs.symm.trans ht
      exact hsettled.tested
    · cases hs.symm.trans herror
  exact isWellScoped_iff (lower_complete h) hdistinct hfits hs htested

/-- `function f(a) { return a; } if (c) { var x = c; }` -/
def keptInside : Node :=
  .program none
    [.function none (.identifier none "f") [.identifier none "a"]
        (.block none [.ret none (some (.identifier none "a"))]),
      .conditional none (.identifier none "c")
        (.block none [.declaration none "var"
          [.declarator none (.identifier none "x") (some (.identifier none "c"))]]) none]

theorem typed_text_of_keptInside_wellScoped :
    ∃ code s, keptInside.lower {} = .ok code ∧ emit .cpp code = .ok s ∧ s.IsWellScoped := by
  obtain ⟨code, hcode⟩ : ∃ code, code = [Instruction.func "f" .unknown, .param "a" .unknown,
    .ret (some (.var "a")) .unknown, .endFunc .unknown, .cmp (.var "c") .unknown,
    .jumpIfFalse "L0" .unknown, .decl "x" .unknown, .mov "x" (.var "c") .unknown, .mark "L0"] :=
      ⟨_, rfl⟩
  have hlower : keptInside.lower {} = .ok code := by rw [hcode]; rfl
  obtain ⟨s, hs⟩ : ∃ s, emit .cpp code = .ok s := by rw [hcode]; exact ⟨_, rfl⟩
  have hparam : DeclaresAt code 1 "a" := by rw [hcode]; exact ⟨_, rfl, rfl⟩
  have hdecl : DeclaresAt code 6 "x" := by rw [hcode]; exact ⟨_, rfl, rfl⟩
  have hfirst : UsedFirst code "c" := by
    rw [hcode]
    refine ⟨4, ⟨_, rfl, List.mem_cons_self⟩, ?_⟩
    rintro j hj ⟨i, hi, hdeclares⟩
    interval_cases j <;> cases hi <;>
      simp [Instruction.declares, Instruction.param, Name.ofOption] at hdeclares
  refine ⟨code, s, hlower, hs, (typed_text_wellScoped_iff keptInside hlower hs).mpr ?_⟩
  rintro k x ⟨i, hi, hx⟩
  have huses : (k = 2 ∧ x = "a") ∨ x = "c" ∨ (k = 7 ∧ x = "x") := by
    rw [hcode] at hi
    have hk : k < 9 := lt_length_of_getElem? hi
    interval_cases k <;> cases hi <;>
      simp_all [Instruction.uses, Instruction.ret, Instruction.cmp, Instruction.mov, Operand.name?,
        Name.ofOption]
  rcases huses with ⟨rfl, rfl⟩ | rfl | ⟨rfl, rfl⟩
  · exact .inr ⟨1, by omega, hparam, hparam.inScope⟩
  · exact .inl hfirst
  · exact .inr ⟨6, by omega, hdecl, hdecl.inScope⟩

/-- `if (c) { var x = c; } x = c;` -/
def usedOutside : Node :=
  .program none
    [.conditional none (.identifier none "c")
        (.block none [.declaration none "var"
          [.declarator none (.identifier none "x") (some (.identifier none "c"))]]) none,
      .expression none (.assignment none "=" (.identifier none "x") (.identifier none "c"))]

/-- The last line assigns to a name whose only declaration stands in a block that is closed. -/
theorem typed_text_of_usedOutside_not_wellScoped :
    ∃ code s, usedOutside.lower {} = .ok code ∧ emit .cpp code = .ok s ∧ ¬ s.IsWellScoped := by
  refine ⟨_, _, rfl, rfl, fun h => ?_⟩
  have hline := h 5 (.assign "x" (.copy (.var "c"))) rfl "x" (by simp [Content.names])
  rcases hline with htop | ⟨scope, hscope, hx⟩
  · have htop : Name.text "x" ∈ [Name.text "c"] := htop
    simp at htop
  · have hscope : scope ∈ [[]] := hscope
    rw [List.mem_singleton.mp hscope] at hx
    cases hx

end Sil
