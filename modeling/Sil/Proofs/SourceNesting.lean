import Mathlib
import Sil.Proofs.LoweredEmission
import Sil.Proofs.LoweredFlow
import Sil.Proofs.OpenPositions

/-!
The nesting of a program is that of its tree. Which blocks are open after an instruction can be read
off the stream, refused or not (`Ascent.step`), and with it the most that were ever open. The code
of a phrase leaves the blocks as they were and on its way climbs as far above them as the phrase is
nested (`lowers_climbs`); an emission notes the depths of the same ascent.
-/
namespace Sil

namespace Node

mutual

def isSilent : Node → Bool
  | .literal .. | .identifier .. => true
  | .program _ body | .block _ body | .declaration _ _ body => isSilentAll body
  | .expression _ inner => isSilent inner
  | _ => false

def isSilentAll : List Node → Bool
  | [] => true
  | n :: rest => isSilent n && isSilentAll rest

end

mutual

/-- How deep the blocks are that a tree needs: one for the right operand of a logical expression,
the consequent of a conditional, the body of a loop that is tested and its update, and the body of a
function that has code. -/
def nesting : Node → Nat
  | .program _ body | .block _ body | .declaration _ _ body => nestingAll body
  | .declarator _ id init => max (nesting id) (nestingSome init)
  | .literal .. | .identifier .. | .foreign .. => 0
  | .binary _ _ left right | .assignment _ _ left right => max (nesting left) (nesting right)
  | .logical _ _ left right => max (nesting left) (nesting right + 1)
  | .expression _ inner => nesting inner
  | .conditional _ test consequent alternate =>
    max (nesting test) (max (nesting consequent + 1) (nestingSome alternate))
  | .whileLoop _ test body => max (nesting test) (nesting body + 1)
  | .forLoop _ init test update body =>
    let repeated := max (nesting body) (nestingSome update)
    max (nestingSome init) (max (nestingSome test) (if test.isSome then repeated + 1 else repeated))
  | .function _ id params body =>
    max (nesting id) (max (nestingAll params) (if isSilent body then 0 else nesting body + 1))
  | .ret _ argument => nestingSome argument

def nestingAll : List Node → Nat
  | [] => 0
  | n :: rest => max (nesting n) (nestingAll rest)

def nestingSome : Option Node → Nat
  | none => 0
  | some n => nesting n

end

theorem isSilentAll_iff {ns : List Node} : isSilentAll ns ↔ ∀ n ∈ ns, n.isSilent := by
  induction ns with
  | nil => simp [isSilentAll]
  | cons n rest ih => simp [isSilentAll, ih]

theorem nestingAll_eq_zero {ns : List Node} (h : ∀ n ∈ ns, n.nesting = 0) : nestingAll ns = 0 := by
  induction ns with
  | nil => rfl
  | cons n rest ih =>
    rw [nestingAll, h n List.mem_cons_self, ih fun m hm => h m (List.mem_cons_of_mem n hm),
      Nat.max_self]

@[simp] theorem nestingAll_toList (n : Option Node) : nestingAll n.toList = nestingSome n := by
  cases n <;> simp [nestingAll, nestingSome]

end Node

namespace Streams
open Control

/-- The function that is about to open, the open blocks with the innermost first, and the most
blocks that were open after an instruction. -/
structure Ascent where
  pending : Option (Option String) := none
  blocks : List (BlockKind × Option String)
  peak : Nat

namespace Ascent

def entered (a : Ascent) : List (BlockKind × Option String) :=
  match a.pending with
  | none => a.blocks
  | some name => (.function, name) :: a.blocks

def closing (label : Option String) (blocks : List (BlockKind × Option String)) :
    List (BlockKind × Option String) :=
  if blocks.head? = some (.branch, label) then blocks.tail else blocks

def shifted (upcoming : Option Instruction) (a : Ascent) (i : Instruction) :
    Option (Option String) × List (BlockKind × Option String) :=
  match i.opcode with
  | .param => (a.pending, a.blocks)
  | .func => (some i.name, a.entered)
  | .jumpIfFalse | .jumpIfTrue => (none, (.branch, i.label) :: a.entered)
  | .jump =>
    match upcoming with
    | some next => (none, if next.opcode = .label then closing next.label a.entered else a.entered)
    | none => (none, a.entered)
  | .label => (none, closing i.label a.entered)
  | .endFunc => (none, a.entered.tail)
  | _ => (none, a.entered)

def step (upcoming : Option Instruction) (a : Ascent) (i : Instruction) : Ascent :=
  let next := a.shifted upcoming i
  ⟨next.1, next.2, max a.peak next.2.length⟩

/-- The ascent along some code that other code follows. -/
def run (rest : List Instruction) : Ascent → List Instruction → Ascent
  | a, [] => a
  | a, i :: is => run rest (a.step (is ++ rest).head? i) is

theorem run_append (rest : List Instruction) (a : Ascent) (xs ys : List Instruction) :
    a.run rest (xs ++ ys) = (a.run (ys ++ rest) xs).run rest ys := by
  induction xs generalizing a with
  | nil => rfl
  | cons i xs ih =>
    rw [List.cons_append, run, run, List.append_assoc]
    exact ih _

variable {rest is : List Instruction} {a : Ascent} {k m : Nat} {i : Instruction}

/-- What was reached before counts on its own. -/
theorem run_max (p : Option (Option String)) (bs : List (BlockKind × Option String)) :
    run rest ⟨p, bs, max m k⟩ is =
      let a := run rest ⟨p, bs, m⟩ is
      ⟨a.pending, a.blocks, max a.peak k⟩ := by
  induction is generalizing p bs m with
  | nil => rfl
  | cons i is ih =>
    have hstep : step (is ++ rest).head? ⟨p, bs, max m k⟩ i =
        let a := step (is ++ rest).head? ⟨p, bs, m⟩ i
        ⟨a.pending, a.blocks, max a.peak k⟩ := by
      simp only [step, shifted, entered, mk.injEq, true_and]
      exact Nat.max_right_comm m k _
    rw [run, run, hstep]
    exact ih _ _

/-- What is open at the end of some code was reached. -/
theorem length_le_peak (h : is ≠ []) : (a.run rest is).blocks.length ≤ (a.run rest is).peak := by
  induction is generalizing a with
  | nil => exact absurd rfl h
  | cons i is ih =>
    cases is with
    | nil => exact Nat.le_max_right _ _
    | cons j is => exact ih (by simp)

/-- A pending function is opened by whatever is no parameter. -/
theorem run_of_pending {name : Option String} {bs : List (BlockKind × Option String)}
    (hi : i.opcode ≠ .param) :
    run rest ⟨some name, bs, m⟩ (i :: is) =
      run rest ⟨none, (.function, name) :: bs, m⟩ (i :: is) := by
  have hshifted : shifted (is ++ rest).head? ⟨some name, bs, m⟩ i =
      shifted (is ++ rest).head? ⟨none, (.function, name) :: bs, m⟩ i := by
    unfold shifted
    cases hop : i.opcode with
    | param => exact absurd hop hi
    | _ => rfl
  rw [run, run, step, hshifted]
  rfl

end Ascent

variable {bs : List (BlockKind × Option String)} {xs ys code : List Instruction} {m n k : Nat}
  {i : Instruction} {label : Option String}

/-- Code that leaves the open blocks as they were and climbs `n` above them. -/
def Climbs (bs : List (BlockKind × Option String)) (code : List Instruction) (n : Nat) : Prop :=
  ∀ rest m, bs.length ≤ m → Ascent.run rest ⟨none, bs, m⟩ code = ⟨none, bs, max m (bs.length + n)⟩

namespace Climbs

theorem congr (h : Climbs bs xs n) (hx : xs = ys) (hn : n = k) : Climbs bs ys k := hx ▸ hn ▸ h

theorem nil : Climbs bs [] 0 := by
  intro rest m hm
  simp only [Ascent.run, Nat.add_zero, Nat.max_eq_left hm]

theorem append (hx : Climbs bs xs n) (hy : Climbs bs ys k) : Climbs bs (xs ++ ys) (max n k) := by
  intro rest m hm
  rw [Ascent.run_append, hx _ m hm, hy rest _ (by omega)]
  congr 1
  omega

/-- An instruction that neither opens nor closes a block. -/
theorem plain (hi : i.opcode = .decl ∨ i.opcode = .mov ∨ (∃ op, i.opcode = .binary op) ∨
    i.opcode = .ret ∨ i.opcode = .cmp) : Climbs bs [i] 0 := by
  intro rest m hm
  have hshifted (upcoming : Option Instruction) :
      Ascent.shifted upcoming ⟨none, bs, m⟩ i = (none, bs) := by
    rcases hi with hi | hi | ⟨op, hi⟩ | hi | hi <;> simp [Ascent.shifted, hi, Ascent.entered]
  simp [Ascent.run, Ascent.step, hshifted]

theorem closing_of_not_mem (h : (.branch, label) ∉ bs) : Ascent.closing label bs = bs :=
  if_neg fun hhead => h (List.mem_of_head? hhead)

theorem mark {name : String} (hname : (.branch, some name) ∉ bs) : Climbs bs [.mark name] 0 := by
  intro rest m hm
  simp [Ascent.run, Ascent.step, Ascent.shifted, Ascent.entered, closing_of_not_mem hname]

/-- A jump and a label that close nothing. -/
theorem leap {name : String} (other : String) (loc : Location) (hname : (.branch, some name) ∉ bs) :
    Climbs bs [.jump other loc, .mark name] 0 := by
  intro rest m hm
  simp [Ascent.run, Ascent.step, Ascent.shifted, Ascent.entered, closing_of_not_mem hname]

section Branch

variable (skip : Instruction) {name : String} (hskip : skip.opcode.isConditionalJump)
  (hlabel : skip.label = some name)
include hskip hlabel

theorem step_skip (upcoming : Option Instruction) (m : Nat) :
    Ascent.step upcoming ⟨none, bs, m⟩ skip =
      ⟨none, (.branch, some name) :: bs, max m (bs.length + 1)⟩ := by
  cases hop : skip.opcode <;> simp [hop, Opcode.isConditionalJump] at hskip <;>
    simp [Ascent.step, Ascent.shifted, hop, Ascent.entered, hlabel]

/-- Code in a branch that its label closes. -/
theorem branch (h : Climbs ((.branch, some name) :: bs) code n) :
    Climbs bs (skip :: (code ++ [.mark name])) (n + 1) := by
  intro rest m hm
  have hclose (m : Nat) : Ascent.run rest ⟨none, (.branch, some name) :: bs, m⟩ [.mark name] =
      ⟨none, bs, max m bs.length⟩ := by
    simp [Ascent.run, Ascent.step, Ascent.shifted, Ascent.entered, Ascent.closing]
  rw [Ascent.run, step_skip skip hskip hlabel, Ascent.run_append, h _ _ (by simp), hclose]
  congr 1
  rw [List.length_cons]
  omega

/-- Code in a branch that a jump in front of its label closes. -/
theorem branchLeft (other : String) (loc : Location) (hname : (.branch, some name) ∉ bs)
    (h : Climbs ((.branch, some name) :: bs) code n) :
    Climbs bs (skip :: (code ++ [.jump other loc, .mark name])) (n + 1) := by
  intro rest m hm
  have hclosed : Ascent.closing (some name) ((.branch, some name) :: bs) = bs := if_pos rfl
  have hclose (m : Nat) : Ascent.run rest ⟨none, (.branch, some name) :: bs, m⟩
      [.jump other loc, .mark name] = ⟨none, bs, max m bs.length⟩ := by
    simp [Ascent.run, Ascent.step, Ascent.shifted, Ascent.entered, closing_of_not_mem hname,
      hclosed]
  rw [Ascent.run, step_skip skip hskip hlabel, Ascent.run_append, h _ _ (by simp), hclose]
  congr 1
  rw [List.length_cons]
  omega

end Branch

/-- Without a bound on what was reached before, if there is an instruction to reach its own
depth. -/
theorem of_ne_nil (h : Climbs bs code n) (hcode : code ≠ []) (rest : List Instruction) (m : Nat) :
    Ascent.run rest ⟨none, bs, m⟩ code = ⟨none, bs, max m (bs.length + n)⟩ := by
  have hmax := h rest (max m bs.length) (Nat.le_max_right _ _)
  rw [Ascent.run_max] at hmax
  simp only [Ascent.mk.injEq] at hmax
  obtain ⟨hpending, hblocks, hpeak⟩ := hmax
  have hreached : (Ascent.run rest ⟨none, bs, m⟩ code).blocks.length ≤
      (Ascent.run rest ⟨none, bs, m⟩ code).peak := Ascent.length_le_peak hcode
  rw [hblocks] at hreached
  generalize Ascent.run rest ⟨none, bs, m⟩ code = a at hpending hblocks hpeak hreached
  obtain ⟨pending, blocks, peak⟩ := a
  dsimp only at hpending hblocks hpeak hreached
  subst hpending hblocks
  congr 1
  omega

theorem run_params {params : List Instruction} (hp : ∀ i ∈ params, i.opcode = .param)
    (rest : List Instruction) (p : Option (Option String)) (hm : bs.length ≤ m) :
    Ascent.run rest ⟨p, bs, m⟩ params = ⟨p, bs, m⟩ := by
  induction params with
  | nil => rfl
  | cons i params ih =>
    have hi : i.opcode = .param := hp i List.mem_cons_self
    have hstep (upcoming : Option Instruction) :
        Ascent.step upcoming ⟨p, bs, m⟩ i = ⟨p, bs, m⟩ := by
      simp [Ascent.step, Ascent.shifted, hi, hm]
    rw [Ascent.run, hstep]
    exact ih fun j hj => hp j (List.mem_cons_of_mem i hj)

/-- A function opens with the first instruction of its body. -/
theorem function (name : String) {params : List Instruction} (loc : Location)
    (hp : ∀ i ∈ params, i.opcode = .param) (hcode : Lowering.StartsPlain code)
    (h : Climbs ((.function, some name) :: bs) code n) :
    Climbs bs (.func name loc :: (params ++ (code ++ [.endFunc loc])))
      (if code = [] then 0 else n + 1) := by
  intro rest m hm
  have hfunc (upcoming : Option Instruction) :
      Ascent.step upcoming ⟨none, bs, m⟩ (.func name loc) = ⟨some (some name), bs, m⟩ := by
    simp [Ascent.step, Ascent.shifted, Ascent.entered, hm, Instruction.func]
  have hend (bs : List (BlockKind × Option String)) (m : Nat) :
      Ascent.run rest ⟨none, (.function, some name) :: bs, m⟩ [.endFunc loc] =
        ⟨none, bs, max m bs.length⟩ := by
    simp [Ascent.run, Ascent.step, Ascent.shifted, Ascent.entered]
  rw [Ascent.run, hfunc, Ascent.run_append, run_params hp _ _ hm]
  cases code with
  | nil =>
    rw [List.nil_append, Ascent.run_of_pending (by simp), hend]
    simp
  | cons i is =>
    have hi : i.opcode ≠ .param := Lowering.startsPlain_cons.mp hcode
    rw [Ascent.run_append, Ascent.run_of_pending hi, h.of_ne_nil (by simp), hend,
      if_neg (List.cons_ne_nil i is)]
    congr 1
    rw [List.length_cons]
    omega

end Climbs
end Streams

namespace Lowering
open Counters Node Streams

/-- Exactly the silent phrases have no code. -/
theorem code_eq_nil_iff {s : Segment} (h : Lowers s) :
    s.code = [] ↔ ∀ n ∈ s.phrase.nodes, n.isSilent := by
  induction h with
  | intro rule parts ih =>
    replace ih := eachPart_iff.mpr ih
    cases rule with
    | function h => simp [Phrase.nodes, isSilent]
    | program | block | declaration =>
      obtain ⟨hbody, -⟩ := ih
      simpa [Phrase.nodes, isSilent, isSilentAll_iff] using hbody
    | cons =>
      obtain ⟨hfirst, hrest, -⟩ := ih
      simp only [Phrase.nodes] at hfirst hrest
      simp [Phrase.nodes, hfirst, hrest]
    | expression | bare | someUpdate =>
      obtain ⟨hinner, -⟩ := ih
      simpa [Phrase.nodes, isSilent] using hinner
    | _ => simp [Phrase.nodes, isSilent]

/-- No open branch waits for a label with a number from `next` on. -/
def FreshFrom (next : Nat) (bs : List (BlockKind × Option String)) : Prop :=
  ∀ n, next ≤ n → (.branch, some (labelName n)) ∉ bs

namespace FreshFrom

variable {next m : Nat} {bs : List (BlockKind × Option String)}

theorem mono (h : FreshFrom next bs) (hm : next ≤ m) : FreshFrom m bs :=
  fun n hn => h n (hm.trans hn)

theorem inside (h : FreshFrom next bs) {k : Nat} (hm : next ≤ m) (hk : k < m) :
    FreshFrom m ((.branch, some (labelName k)) :: bs) := by
  intro n hn hmem
  rcases List.mem_cons.mp hmem with heq | hmem
  · have hlabel : k = n := by simpa using heq.symm
    omega
  · exact h n (hm.trans hn) hmem

theorem inFunction (h : FreshFrom next bs) (name : Option String) :
    FreshFrom next ((.function, name) :: bs) := by
  intro n hn hmem
  rcases List.mem_cons.mp hmem with heq | hmem
  · cases heq
  · exact h n hn hmem

end FreshFrom

/-- The code of a phrase climbs as far as the phrase is nested. -/
theorem lowers_climbs {s : Segment} (h : Lowers s) {bs : List (BlockKind × Option String)}
    (hfresh : FreshFrom s.before.labels bs) : Climbs bs s.code (nestingAll s.phrase.nodes) := by
  induction h generalizing bs with
  | @intro f c c' p pieces rule parts ih =>
    replace ih := eachPart_iff (P := fun t => ∀ {bs}, FreshFrom t.before.labels bs →
      Climbs bs t.code (nestingAll t.phrase.nodes)) |>.mpr ih
    replace parts := eachPart_iff.mpr parts
    cases rule with
    | literal | identifier | nil | noUpdate => exact .nil
    | binary =>
      obtain ⟨hleft, hright, -⟩ := ih
      obtain ⟨left, -⟩ := parts
      have hright := hright (hfresh.mono (counters_le left).2)
      refine ((hleft hfresh).append (hright.append (.plain ?_))).congr rfl ?_
      · simp
      · simp [Phrase.nodes, nestingAll, nesting]
    | @logical _ _ c₁ c₂ loc operator skip left right lhs rhs leftCode rightCode h =>
      obtain ⟨hleft, hright, -⟩ := ih
      obtain ⟨left, -⟩ := parts
      have hskip : (skip (labelName c₁.labels) (loc.getD .unknown)).opcode.isConditionalJump ∧
          (skip (labelName c₁.labels) (loc.getD .unknown)).label = some (labelName c₁.labels) := by
        obtain ⟨-, rfl⟩ | ⟨-, rfl⟩ := shortCut?_eq_some.mp h <;> exact ⟨rfl, rfl⟩
      have hfresh₁ : FreshFrom c₁.labels bs := hfresh.mono (counters_le left).2
      have hright := hright (hfresh₁.inside (k := c₁.labels) (by simp) (by simp))
      have hmov (bs : List (BlockKind × Option String)) (value : Operand) :
          Climbs bs [.mov (tempName c₁.temps) value (loc.getD .unknown)] 0 := .plain (by simp)
      have hbranch := Climbs.branchLeft _ hskip.1 hskip.2 (labelName (c₁.labels + 1))
          (loc.getD .unknown)
        (hfresh₁ c₁.labels le_rfl) (hright.append (hmov _ rhs))
      have hend : Climbs bs [.mark (labelName (c₁.labels + 1))] 0 :=
        .mark (hfresh₁ (c₁.labels + 1) (by omega))
      refine ((hleft hfresh).append
        ((Climbs.plain (i := .cmp lhs (loc.getD .unknown)) (by simp)).append
        (hbranch.append ((hmov bs lhs).append hend)))).congr (by simp) ?_
      simp [Phrase.nodes, nestingAll, nesting]
    | assignment | retValue =>
      obtain ⟨hvalue, -⟩ := ih
      refine ((hvalue hfresh).append (.plain ?_)).congr rfl ?_
      · simp
      · simp [Phrase.nodes, nestingAll, nesting, nestingSome]
    | program | block | declaration | expression | bare | someUpdate =>
      obtain ⟨hpart, -⟩ := ih
      refine (hpart hfresh).congr (by simp) ?_
      simp [Phrase.nodes, nestingAll, nesting]
    | declare | ret =>
      refine Climbs.congr (.plain ?_) rfl ?_
      · simp
      · simp [Phrase.nodes, nestingAll, nesting, nestingSome]
    | @initialise _ _ _ loc _ name =>
      obtain ⟨hvalue, -⟩ := ih
      have hdecl : Climbs bs [.decl name (loc.getD .unknown)] 0 := .plain (by simp)
      refine (hdecl.append ((hvalue hfresh).append (.plain ?_))).congr rfl ?_
      · simp
      · simp [Phrase.nodes, nestingAll, nesting, nestingSome]
    | @conditional _ _ c₁ c₂ loc test consequent tested testCode code =>
      obtain ⟨htest, hbody, -⟩ := ih
      obtain ⟨test, -⟩ := parts
      have hfresh₁ : FreshFrom c₁.labels bs := hfresh.mono (counters_le test).2
      have hcmp : Climbs bs [.cmp tested (loc.getD .unknown)] 0 := .plain (by simp)
      have hbranch := Climbs.branch (.jumpIfFalse (labelName c₁.labels) (loc.getD .unknown))
        rfl rfl (hbody (hfresh₁.inside (k := c₁.labels) (by simp) (by simp)))
      refine ((htest hfresh).append (hcmp.append hbranch)).congr (by simp) ?_
      simp [Phrase.nodes, nestingAll, nesting, nestingSome]
    | @alternative _ _ c₁ c₂ c₃ loc test consequent alternate tested testCode code elseCode =>
      obtain ⟨htest, hbody, helse, -⟩ := ih
      obtain ⟨test, body, -⟩ := parts
      have hle : c₁.labels + 2 ≤ c₂.labels := (counters_le body).2
      have hfresh₁ : FreshFrom c₁.labels bs := hfresh.mono (counters_le test).2
      have hcmp : Climbs bs [.cmp tested (loc.getD .unknown)] 0 := .plain (by simp)
      have hbranch := Climbs.branchLeft (.jumpIfFalse (labelName c₁.labels) (loc.getD .unknown))
        rfl rfl (labelName (c₁.labels + 1)) (loc.getD .unknown) (hfresh₁ c₁.labels le_rfl)
        (hbody (hfresh₁.inside (k := c₁.labels) (by simp) (by simp)))
      have helse := helse (hfresh₁.mono (by simp; omega))
      have hend : Climbs bs [.mark (labelName (c₁.labels + 1))] 0 :=
        .mark (hfresh₁ (c₁.labels + 1) (by omega))
      refine ((htest hfresh).append (hcmp.append (hbranch.append (helse.append hend)))).congr
        (by simp) ?_
      simp [Phrase.nodes, nestingAll, nesting, nestingSome]
    | @whileLoop _ _ c₁ c₂ loc test body tested testCode code =>
      obtain ⟨htest, hbody, -⟩ := ih
      obtain ⟨test, -⟩ := parts
      have hle : c.labels + 2 ≤ c₁.labels := (counters_le test).2
      have hstart : Climbs bs [.mark (labelName c.labels)] 0 := .mark (hfresh c.labels le_rfl)
      have hcmp : Climbs bs [.cmp tested (loc.getD .unknown)] 0 := .plain (by simp)
      have hbranch := Climbs.branchLeft
        (.jumpIfFalse (labelName (c.labels + 1)) (loc.getD .unknown))
        rfl rfl
        (labelName c.labels) (loc.getD .unknown) (hfresh (c.labels + 1) (by simp))
        (hbody (hfresh.inside (k := c.labels + 1) (by simp; omega) (by simp; omega)))
      refine (hstart.append ((htest (hfresh.mono (by simp))).append (hcmp.append hbranch))).congr
        (by simp) ?_
      simp [Phrase.nodes, nestingAll, nesting]
    | @forLoop _ _ c₁ c₂ c₃ c₄ loc init test update body tested initCode testCode code updateCode =>
      obtain ⟨hinit, htest, hbody, hupdate, -⟩ := ih
      obtain ⟨init, test, body, -⟩ := parts
      have hle : c₁.labels + 2 ≤ c₂.labels := (counters_le test).2
      have hle' : c₂.labels ≤ c₃.labels := (counters_le body).2
      have hfresh₁ : FreshFrom c₁.labels bs := hfresh.mono (counters_le init).2
      have hin {m : Nat} (hm : c₁.labels + 2 ≤ m) :
          FreshFrom m ((.branch, some (labelName (c₁.labels + 1))) :: bs) :=
        hfresh₁.inside (by omega) (by omega)
      have hstart : Climbs bs [.mark (labelName c₁.labels)] 0 := .mark (hfresh₁ c₁.labels le_rfl)
      have hcmp : Climbs bs [.cmp tested (loc.getD .unknown)] 0 := .plain (by simp)
      have hbranch := Climbs.branchLeft
        (.jumpIfFalse (labelName (c₁.labels + 1)) (loc.getD .unknown))
        rfl rfl
        (labelName c₁.labels) (loc.getD .unknown) (hfresh₁ (c₁.labels + 1) (by omega))
        ((hbody (hin hle)).append (hupdate (hin (by simp; omega))))
      refine ((hinit hfresh).append (hstart.append ((htest (hfresh₁.mono (by simp))).append
        (hcmp.append hbranch)))).congr (by simp) ?_
      simp [Phrase.nodes, nestingAll, nesting, nestingSome]
    | @endlessLoop _ _ c₁ c₂ c₃ loc init update body initCode code updateCode =>
      obtain ⟨hinit, hbody, hupdate, -⟩ := ih
      obtain ⟨init, body, -⟩ := parts
      have hle : c₁.labels + 2 ≤ c₂.labels := (counters_le body).2
      have hfresh₁ : FreshFrom c₁.labels bs := hfresh.mono (counters_le init).2
      have hstart : Climbs bs [.mark (labelName c₁.labels)] 0 := .mark (hfresh₁ c₁.labels le_rfl)
      have hend := Climbs.leap (labelName c₁.labels) (loc.getD .unknown)
        (hfresh₁ (c₁.labels + 1) (by omega))
      refine ((hinit hfresh).append (hstart.append ((hbody (hfresh₁.mono (by simp))).append
        ((hupdate (hfresh₁.mono (by simp; omega))).append hend)))).congr (by simp) ?_
      simp [Phrase.nodes, nestingAll, nesting, nestingSome]
    | @function _ c₁ loc nameLoc name params body paramCode code h =>
      obtain ⟨hbody, -⟩ := (eachPart_own _ _).mp ih
      obtain ⟨hlowers, -⟩ := (eachPart_own _ _).mp parts
      have hparams : ∀ i ∈ paramCode, i.opcode = .param := by
        intro i hi
        obtain ⟨_, _, -, rfl⟩ := parameters_eq_ok h i hi
        rfl
      have hfunction := Climbs.function name (loc.getD .unknown) hparams
        (lowers_startsPlain hlowers) (hbody (hfresh.inFunction (some name)))
      refine hfunction.congr (by simp) ?_
      have hnames : nestingAll params = 0 := by
        refine nestingAll_eq_zero fun p hp => ?_
        obtain ⟨_, _, rfl⟩ := parameters_identifiers h p hp
        rw [nesting]
      have hsilent : code = [] ↔ body.isSilent := by
        simpa [Phrase.nodes] using code_eq_nil_iff hlowers
      simp [Phrase.nodes, nestingAll, nesting, hnames, hsilent]
    | cons =>
      obtain ⟨hfirst, hrest, -⟩ := ih
      obtain ⟨first, -⟩ := parts
      refine ((hfirst hfresh).append (hrest (hfresh.mono (counters_le first).2))).congr (by simp) ?_
      simp [Phrase.nodes, nestingAll]

end Lowering

namespace Streams
open Control

/-- A move of the control machine is a step of the ascent. -/
theorem shifted_of_moves {upcoming : Option Instruction} {c c' : Control} {i : Instruction}
    (h : Moves upcoming c i c') (m : Nat) :
    Ascent.shifted upcoming ⟨c.header.map (·.name), c.blocks, m⟩ i =
      (c'.header.map (·.name), c'.blocks) := by
  have hentered : Ascent.entered ⟨c.header.map (·.name), c.blocks, m⟩ = c.enter.blocks := by
    unfold Ascent.entered enter
    cases c.header <;> rfl
  have hclosing (label : Option String) : Ascent.closing label c.enter.blocks =
      if c.enter.closes label then c.enter.blocks.tail else c.enter.blocks := by
    simp [Ascent.closing, closes]
  unfold Ascent.shifted
  rw [hentered]
  cases h with
  | plain ho => rcases ho with ho | ho | ⟨op, ho⟩ | ho <;> simp [ho]
  | cmp ho => simp [ho]
  | branch ho =>
    cases hop : i.opcode <;> simp [hop, Opcode.isConditionalJump] at ho <;> simp [await]
  | jump ho _ hopen =>
    rw [ho]
    cases upcoming with
    | none => simp [await]
    | some next =>
      by_cases hnext : next.opcode = .label
      · have hcloses : c.enter.closes next.label = false := by
          simpa [closesBefore, hnext] using hopen
        simp [hnext, hclosing, hcloses, await]
      · simp [hnext, await]
  | jumpClosing ho _ hclose =>
    rw [ho]
    cases upcoming with
    | none => cases hclose
    | some next =>
      obtain ⟨hnext, hcloses⟩ : next.opcode = .label ∧ c.enter.closes next.label := by
        simpa [closesBefore] using hclose
      simp [hnext, hclosing, hcloses, await, close]
  | label ho _ _ hb => simp [ho, Climbs.closing_of_not_mem hb, define]
  | labelClosing ho _ _ hb => simp [ho, Ascent.closing, hb, define, close]
  | func ho => simp [ho]
  | param ho _ hh => simp [ho, hh]
  | endFunc ho _ hb => simp [ho, hb, close]

end Streams

namespace Emission
open EmissionState Streams

variable {b : Backend} {s s' : EmissionState} {i : Instruction} {is : List Instruction}

def ascent (s : EmissionState) (peak : Nat) : Ascent :=
  ⟨s.header.map (·.name), s.control.blocks, peak⟩

theorem ascent_step {upcoming : Option Instruction} (h : step b upcoming s i = .ok s') (m : Nat) :
    (ascent s m).step upcoming i = ascent s' (max m s'.blocks.length) := by
  have hlength : s'.control.blocks.length = s'.blocks.length := List.length_map _
  have hshifted : (ascent s m).shifted upcoming i = (s'.header.map (·.name), s'.control.blocks) :=
    shifted_of_moves (step_moves h) m
  rw [Ascent.step, hshifted, ← hlength]
  rfl

/-- The depths that an emission notes are those of the ascent, from the base depth on. -/
theorem depths_of_run (h : run b s is = .ok s') (hs : s.IsNested b) (m : Nat) :
    ∃ depths, s'.depthTrace = s.depthTrace ++ depths ∧ (∀ d ∈ depths, b.baseDepth ≤ d) ∧
      depths.foldl max (b.baseDepth + m) = b.baseDepth + ((ascent s m).run [] is).peak := by
  induction is generalizing s m with
  | nil =>
    cases h
    exact ⟨[], (List.append_nil _).symm, by simp, rfl⟩
  | cons i is ih =>
    obtain ⟨t, hstep, h⟩ := bind_eq_ok.mp h
    have ht : t.IsNested b := isNested_step hstep hs
    have hdepth : t.depth = b.baseDepth + t.blocks.length := nested_length ht
    obtain ⟨depths, htrace, hbase, hpeak⟩ := ih h ht (max m t.blocks.length)
    refine ⟨t.depth :: depths, ?_, ?_, ?_⟩
    · rw [htrace, depthTrace_step hstep, List.append_assoc, List.singleton_append]
    · exact List.forall_mem_cons.mpr ⟨by omega, hbase⟩
    · rw [List.foldl_cons, hdepth, Nat.add_max_add_left, hpeak, Ascent.run, List.append_nil,
        ascent_step hstep]

/-- The deepest that an emission gets. -/
theorem maxDepth_of_emit (h : emit b is = .ok s) :
    s.maxDepth = b.baseDepth + (Ascent.run [] ⟨none, [], 0⟩ is).peak := by
  obtain ⟨hafter, -⟩ := after_length_of_emit h
  have hnested : (initial b).IsNested b := rfl
  obtain ⟨depths, htrace, hbase, hpeak⟩ := depths_of_run (run_eq_after.trans hafter) hnested 0
  have htrace : s.depthTrace = depths := htrace
  have hascent : ascent (initial b) 0 = ⟨none, [], 0⟩ := rfl
  rw [hascent] at hpeak
  rw [← hpeak, maxDepth, htrace]
  cases depths with
  | nil => exact (emit_closed h).1
  | cons d rest =>
    rw [List.foldl_cons, Nat.add_zero, Nat.max_eq_right (hbase d List.mem_cons_self)]

end Emission

open Emission Lowering in
/-- The emitted nesting is the source nesting. What is emitted for a tree gets as deep, in either
language, as the tree is nested above the depth at which the language begins; and the phrases that
count as silent there are those without code. -/
theorem maxDepth_eq_nesting {limits : Limits} (tree : Node) {code : List Instruction} {c : Counters}
    (h : tree.lowerCounting limits = .ok (code, c)) (b : Backend) :
    ((∃ s, emit b code = .ok s ∧ s.maxDepth = b.baseDepth + tree.nesting) ∨
      (emit b code = .error (.fault (.digitLimit none)) ∧ tree.HasLongInteger)) ∧
    ∀ off t, Occurs (.ofTree tree code c) off t →
      (t.code = [] ↔ ∀ n ∈ t.phrase.nodes, n.isSilent) := by
  refine ⟨?_, fun off t hoccurs => code_eq_nil_iff hoccurs.lowers⟩
  have hfresh : FreshFrom 0 ([] : List (BlockKind × Option String)) := fun n _ => List.not_mem_nil
  have hclimbs := lowers_climbs (lowers_ofTree h) hfresh
  rcases emit_of_lower (lower_of_lowerCounting h) b with ⟨s, hs, -⟩ | hlimit
  · refine .inl ⟨s, hs, ?_⟩
    rw [maxDepth_of_emit hs]
    have hpeak : (Streams.Ascent.run [] ⟨none, [], 0⟩ code).peak = _ :=
      congrArg Streams.Ascent.peak (hclimbs [] 0 le_rfl)
    rw [hpeak]
    simp [Segment.ofTree, Phrase.nodes, Node.nestingAll]
  · exact .inr hlimit

/-- A function without code beside one whose body tests twice on its deepest way. -/
def nestedTree : Node :=
  let name (s : String) := Node.identifier none s
  .program none
    [.function none (name "f") [name "x"] (.block none [.expression none (name "x")]),
      .function none (name "g") []
        (.block none [.conditional none (name "a") (.block none [])
          (some (.whileLoop none (.logical none "&&" (name "b") (name "c"))
            (.logical none "||" (name "d") (name "e"))))])]

open Emission Lowering in
/-- The loop stands in its function at the depth of the conditional, and its body is two deeper. -/
theorem maxDepth_nestedTree :
    ∃ code s, nestedTree.lower {} = .ok code ∧ emit .cpp code = .ok s ∧ s.maxDepth = 1 + 3 := by
  have hruns : ∃ code c, nestedTree.lowerCounting {} = .ok (code, c) ∧
      ∃ s, emit .cpp code = .ok s :=
    ⟨_, _, rfl, _, rfl⟩
  obtain ⟨code, c, h, t, ht⟩ := hruns
  rcases (maxDepth_eq_nesting nestedTree h .cpp).1 with ⟨s, hs, hdepth⟩ | ⟨hlimit, -⟩
  · exact ⟨code, s, lower_of_lowerCounting h, hs, hdepth⟩
  · rw [ht] at hlimit
    cases hlimit

end Sil
