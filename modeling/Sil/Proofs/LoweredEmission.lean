import Mathlib
import Sil.Compile
import Sil.Proofs.EmissionDepth
import Sil.Proofs.LoweredTrace
import Sil.Proofs.Subtree

/-!
Code that comes from a tree is always emitted: no target language refuses it, and the emission ends
outside of all blocks with nothing pending. So a compilation fails where lowering fails, or at a
literal with an integer that has too many digits to be written.
-/
namespace Sil

def Node.HasLongInteger (tree : Node) : Prop := ∃ n, Node.Subtree n tree ∧ n.isWritable = false

namespace Lowering
open Control Emission

theorem lower_spellable {limits : Limits} {tree : Node} {code : List Instruction}
    (h : tree.lower limits = .ok code) (ht : ¬ tree.HasLongInteger) :
    ∀ i ∈ code, i.isSpellable := by
  obtain ⟨c, hs⟩ := lowers_of_lower h
  refine lowers_spellable hs fun n hn m hm => ?_
  obtain rfl : n = tree := List.mem_singleton.mp hn
  by_contra hw
  exact ht ⟨m, hm, Bool.eq_false_iff.mpr hw⟩

/-- The control machine accepts the code of a tree, unless a literal cannot be written. -/
theorem accept_of_lower {limits : Limits} {tree : Node} {code : List Instruction}
    (h : tree.lower limits = .ok code) :
    accept code = .ok (idle [] (marks code) []) ∨
      (accept code = .error (.fault (.digitLimit none)) ∧ tree.HasLongInteger) := by
  have hfinish : (idle [] (marks code) []).finish = .ok (idle [] (marks code) []) := rfl
  by_cases hlong : tree.HasLongInteger
  · obtain hrun | hrun := run_of_trace (trace_of_lower h)
    · left
      rw [accept, hrun]
      exact hfinish
    · right
      rw [accept, hrun]
      exact ⟨rfl, hlong⟩
  · have hrun := run_of_trace_spellable (trace_of_lower h) (lower_spellable h hlong) rfl
    left
    rw [accept, hrun]
    exact hfinish

/-- What an emission leaves behind when nothing is open or pending. -/
structure Settled (b : Backend) (s : EmissionState) : Prop where
  depth : s.depth = b.baseDepth
  blocks : s.blocks = []
  header : s.header = none
  tested : s.tested = none
  forwardTargets : s.forwardTargets = []

theorem emit_of_lower {limits : Limits} {tree : Node} {code : List Instruction}
    (h : tree.lower limits = .ok code) (b : Backend) :
    (∃ s, emit b code = .ok s ∧ Settled b s) ∨
      (emit b code = .error (.fault (.digitLimit none)) ∧ tree.HasLongInteger) := by
  have hcontrol := control_emit b (lower_complete h)
  cases hemit : emit b code with
  | ok s =>
    left
    rw [hemit] at hcontrol
    obtain haccept | ⟨haccept, -⟩ := accept_of_lower h
    · rw [haccept] at hcontrol
      have hs : s.control = idle [] (marks code) [] := Except.ok.inj hcontrol
      obtain ⟨hdepth, hblocks, hforward⟩ := emit_closed hemit
      exact ⟨s, rfl, hdepth, hblocks, congrArg Control.header hs, congrArg Control.tested hs,
        hforward⟩
    · rw [haccept] at hcontrol
      cases hcontrol
  | error e =>
    right
    rw [hemit] at hcontrol
    obtain haccept | ⟨haccept, hlong⟩ := accept_of_lower h
    · rw [haccept] at hcontrol
      cases hcontrol
    · rw [haccept] at hcontrol
      exact ⟨congrArg Except.error (Except.error.inj hcontrol), hlong⟩

private theorem mapM_eq_error {α β ε : Type} {f : α → Except ε β} {xs : List α} {e : ε}
    (h : xs.mapM f = .error e) : ∃ x ∈ xs, f x = .error e := by
  induction xs with
  | nil => cases h
  | cons x xs ih =>
    rw [List.mapM_cons] at h
    cases hx : f x with
    | error e' =>
      rw [hx] at h
      cases h
      exact ⟨x, List.mem_cons_self, hx⟩
    | ok y =>
      rw [hx] at h
      cases hxs : xs.mapM f with
      | error e' =>
        simp only [hxs, bind, Except.bind] at h
        cases h
        obtain ⟨z, hz, he⟩ := ih hxs
        exact ⟨z, List.mem_cons_of_mem x hz, he⟩
      | ok ys =>
        simp only [hxs, bind, Except.bind] at h
        cases h

/-- A tree whose target languages are known fails to compile only where its lowering fails or one of
its literals cannot be written. -/
theorem compile_eq_error {tree : Node} {settings : Settings} {names : Option (List Name)}
    (hn : ∀ n ∈ names.getD settings.backends, ∃ b : Backend, n = .text b.name) {e : Error}
    (h : tree.compile settings names = .error e) :
    tree.lower settings.host.limits = .error e ∨
      (e = .fault (.digitLimit none) ∧ tree.HasLongInteger) := by
  unfold Node.compile at h
  cases hrequested : settings.requested names with
  | error e' =>
    obtain ⟨n, hmem, hn'⟩ := mapM_eq_error hrequested
    obtain ⟨b, rfl⟩ := hn n hmem
    cases b <;> cases hn'
  | ok backends =>
    rw [hrequested] at h
    change tree.compileTo settings.host.limits backends settings.indent = .error e at h
    unfold Node.compileTo at h
    cases hlower : tree.lower settings.host.limits with
    | error e' =>
      rw [hlower] at h
      cases h
      exact .inl rfl
    | ok code =>
      rw [hlower] at h
      change ((distinct backends).mapM fun b => do
        return (b.name, ← b.render settings.indent code)) >>= _ = _ at h
      cases houtputs : (distinct backends).mapM fun b => do
          return (b.name, ← b.render settings.indent code) with
      | ok outputs =>
        rw [houtputs] at h
        cases h
      | error e' =>
        rw [houtputs] at h
        cases h
        obtain ⟨b, -, hb⟩ := mapM_eq_error houtputs
        obtain ⟨s, hs, -⟩ | ⟨hs, hlong⟩ := emit_of_lower hlower b
        · rw [Backend.render, hs] at hb
          cases hb
        · rw [Backend.render, hs] at hb
          cases hb
          exact .inr ⟨rfl, hlong⟩

end Lowering

open Lowering Emission in
/-- Every target language takes the code of every tree that lowers, with any indentation, and closes
all that it opened. So a compilation to known languages has no failure of its own. -/
theorem emission_of_lowered_settles (tree : Node) :
    (∀ limits code, tree.lower limits = .ok code → ∀ (b : Backend) (indent : String),
      (∃ s, emit b code = .ok s ∧ Settled b s ∧
        b.render indent code = .ok (String.intercalate "\n" (b.textLines indent s))) ∨
      (emit b code = .error (.fault (.digitLimit none)) ∧
        b.render indent code = .error (.fault (.digitLimit none)) ∧ tree.HasLongInteger)) ∧
    ∀ (settings : Settings) (names : Option (List Name)),
      (∀ n ∈ names.getD settings.backends, ∃ b : Backend, n = .text b.name) →
      ∀ e, tree.compile settings names = .error e →
        tree.lower settings.host.limits = .error e ∨
          (e = .fault (.digitLimit none) ∧ tree.HasLongInteger) := by
  constructor
  · intro limits code hcode b indent
    obtain ⟨s, hs, hsettled⟩ | ⟨hs, hlong⟩ := emit_of_lower hcode b
    · left
      refine ⟨s, hs, hsettled, ?_⟩
      rw [Backend.render, hs]
      rfl
    · right
      refine ⟨hs, ?_, hlong⟩
      rw [Backend.render, hs]
      rfl
  · intro settings names hn e he
    exact compile_eq_error hn he

/-- A function with a loop, a choice and two short cuts in it. -/
def countdown : Node :=
  let name (s : String) := Node.identifier none s
  .function none (name "f") [name "n"] (.block none
    [.whileLoop none (.logical none "&&" (name "n") (.logical none "||" (name "a") (name "b")))
      (.conditional none (.binary none "<" (name "n") (.literal none (.int 9) "9"))
        (.assignment none "=" (name "n")
          (.binary none "-" (name "n") (.literal none (.int 1) "1")))
        (some (.ret none (some (name "n")))))])

open Lowering Emission in
theorem emission_of_countdown_settles :
    (∃ code, countdown.lower {} = .ok code ∧ ∀ (b : Backend) (indent : String),
      (∃ s, emit b code = .ok s ∧ Settled b s ∧
        b.render indent code = .ok (String.intercalate "\n" (b.textLines indent s))) ∨
      (emit b code = .error (.fault (.digitLimit none)) ∧
        b.render indent code = .error (.fault (.digitLimit none)) ∧ countdown.HasLongInteger)) ∧
    ∀ e, countdown.compile {} (some [.text "cpp"]) = .error e → e = .fault (.digitLimit none) := by
  have hlower : ∃ code, countdown.lower {} = .ok code := ⟨_, rfl⟩
  obtain ⟨code, hcode⟩ := hlower
  obtain ⟨hemit, hcompile⟩ := emission_of_lowered_settles countdown
  refine ⟨⟨code, hcode, hemit {} code hcode⟩, fun e he => ?_⟩
  have hknown : ∀ n ∈ [Name.text "cpp"], ∃ b : Backend, n = .text b.name := by
    intro n hn
    exact ⟨.cpp, List.mem_singleton.mp hn⟩
  obtain hfail | ⟨he, -⟩ := hcompile {} (some [.text "cpp"]) hknown e he
  · rw [hcode] at hfail
    cases hfail
  · exact he

end Sil
