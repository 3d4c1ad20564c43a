import Mathlib
import Sil.Proofs.EmissionNaming

/-!
The target languages go through a stream in step. What they write differs, and so do the types that
they give; but which blocks are open, which labels are known, which names are declared or hoisted,
and whether and how a stream is refused do not depend on the language. `alike_step` is the
simulation for one instruction, `alike_after` for every prefix of a stream.
-/
namespace Sil

/-- Whether the fields that an operation looks at are there, whatever they hold. -/
def Instruction.hasFields (i : Instruction) : Bool :=
  match i.opcode with
  | .decl | .func | .param => i.name.isSome
  | .mov => i.dest.isSome && !i.operands.isEmpty
  | .binary _ => i.dest.isSome && i.operands.length == 2
  | .cmp => !i.operands.isEmpty
  | .jumpIfFalse | .jumpIfTrue | .jump | .label => i.label.isSome
  | .endFunc | .ret => true

namespace Emission
open EmissionState

/-- Two computations that fare alike: both fail with the same error, or both succeed and their
results are related. -/
inductive Alike {α : Type} (r : α → α → Prop) : Except Error α → Except Error α → Prop
  | fails (e : Error) : Alike r (.error e) (.error e)
  | succeeds {x y : α} (h : r x y) : Alike r (.ok x) (.ok y)

namespace Alike

variable {α β : Type} {r : α → α → Prop} {q : β → β → Prop} {x y : Except Error α}

theorem bind {f g : α → Except Error β} (h : Alike r x y)
    (hf : ∀ a b, r a b → Alike q (f a) (g b)) : Alike q (x >>= f) (y >>= g) := by
  cases h with
  | fails e => exact .fails e
  | succeeds hr => exact hf _ _ hr

theorem of_map_eq {f : α → β} (h : x.map f = y.map f) : Alike (fun a b => f a = f b) x y := by
  cases x with
  | error e =>
    cases y with
    | error e' =>
      cases h
      exact .fails e
    | ok b => cases h
  | ok a =>
    cases y with
    | error e' => cases h
    | ok b => exact .succeeds (Except.ok.inj h)

theorem ok_iff (h : Alike r x y) : (∃ a, x = .ok a) ↔ ∃ b, y = .ok b := by
  cases h <;> simp

theorem error_iff (h : Alike r x y) (e : Error) : x = .error e ↔ y = .error e := by
  cases h <;> simp

theorem related (h : Alike r x y) {a b : α} (hx : x = .ok a) (hy : y = .ok b) : r a b := by
  cases h with
  | fails e => cases hx
  | succeeds hr =>
    cases hx
    cases hy
    exact hr

end Alike

def SameControl (s t : EmissionState) : Prop := s.control = t.control

theorem SameControl.map {s t s' t' : EmissionState} (h : SameControl s t) (f : Control → Control)
    (hs : s'.control = f s.control) (ht : t'.control = f t.control) : SameControl s' t' := by
  unfold SameControl
  rw [hs, ht, h]

variable {b b' : Backend} {s s' t : EmissionState} {i : Instruction} {is : List Instruction}
  {k : Nat} {upcoming : Option Instruction}

theorem alike_noteReads (h : SameControl s t) (operands : List Operand) :
    Alike SameControl (noteReads b s operands) (noteReads b' t operands) := by
  induction operands generalizing s t with
  | nil => exact .succeeds h
  | cons o rest ih =>
    unfold noteReads
    cases o.name? with
    | none => exact ih h
    | some n =>
      dsimp only
      cases n.unhashable? with
      | some kind => exact .fails _
      | none =>
        exact ih (h.map id (control_noteUse b s n _) (control_noteUse b' t n _))

theorem alike_assign (h : SameControl s t) (source : Source) :
    Alike SameControl (assign b s i source) (assign b' t i source) := by
  refine (alike_noteReads h i.operands).bind fun u v huv => .succeeds (huv.map id ?_ ?_)
  · rw [control_writeStatement, control_noteUse, id]
  · rw [control_writeStatement, control_noteUse, id]

/-- A check that looks at no state has the same outcome on both sides. -/
theorem alike_check {x : Except Error Unit} {f g : Unit → Except Error EmissionState}
    (h : Alike SameControl (f ()) (g ())) : Alike SameControl (x >>= f) (x >>= g) := by
  cases x with
  | error e => exact .fails e
  | ok _ => exact h

/-- An instruction does the same to two states with the same control part, whichever the
languages. -/
theorem alike_perform (h : SameControl s t)
    (hu : ∀ j, upcoming = some j → j.opcode = .mov → j.operands ≠ []) :
    Alike SameControl (perform b upcoming s i) (perform b' upcoming t i) := by
  -- The operations on control alone are those of the control machine, which knows no language.
  have hcontrol {x y : Except Error EmissionState} {z w : Except Error Control}
      (hx : x.map control = z) (hy : y.map control = w) (hzw : z = w) : Alike SameControl x y :=
    .of_map_eq (hx.trans (hzw.trans hy.symm))
  have header_eq : s.header = t.header := congrArg Control.header h
  unfold perform
  cases i.opcode with
  | decl => exact hcontrol (control_declare b hu s i) (control_declare b' hu t i) (congrArg _ h)
  | mov =>
    cases i.operands with
    | nil => exact .fails _
    | cons source rest => exact alike_check (alike_assign h (.copy source))
  | binary op =>
    show Alike SameControl (twoOperands i.operands >>= _) (twoOperands i.operands >>= _)
    cases twoOperands i.operands with
    | error e => exact .fails e
    | ok operands => exact alike_assign h (.operation op operands.1 operands.2)
  | cmp =>
    refine (alike_noteReads h i.operands).bind fun u v huv => ?_
    cases i.operands with
    | nil => exact .fails _
    | cons test rest => exact .succeeds (huv.map (fun c => { c with tested := some test }) rfl rfl)
  | jumpIfFalse => exact hcontrol (control_branch s i true) (control_branch t i true) (by rw [h])
  | jumpIfTrue => exact hcontrol (control_branch s i false) (control_branch t i false) (by rw [h])
  | jump =>
    refine .succeeds ?_
    unfold SameControl
    rw [control_jump, control_jump, h]
  | label => exact hcontrol (control_defineLabel b s i) (control_defineLabel b' t i) (by rw [h])
  | func =>
    dsimp only
    rw [inFunction_eq, inFunction_eq, h]
    split
    · exact .fails _
    · exact .succeeds (h.map (fun c => { c with header := some { name := i.name } }) rfl rfl)
  | param =>
    dsimp only
    rw [header_eq]
    cases t.header with
    | none => exact .fails _
    | some header =>
      exact .succeeds (h.map (fun c =>
        { c with header := some { header with params := header.params ++ [i.name] } }) rfl rfl)
  | endFunc =>
    have hblocks : s.blocks.map (fun block => (block.kind, block.label)) =
        t.blocks.map (fun block => (block.kind, block.label)) := congrArg Control.blocks h
    cases hs : s.blocks with
    | nil =>
      rw [hs] at hblocks
      rw [List.map_eq_nil_iff.mp hblocks.symm]
      exact .fails _
    | cons block rest =>
      rw [hs] at hblocks
      obtain ⟨block', rest', ht, hblock, -⟩ := List.map_eq_cons_iff.mp hblocks.symm
      obtain ⟨hkind, hlabel⟩ := Prod.mk.inj hblock
      rw [ht]
      dsimp only
      rw [hkind, hlabel]
      split
      · exact .succeeds (h.map Control.close (control_closeBlock b s) (control_closeBlock b' t))
      · exact .fails _
  | ret =>
    refine (alike_noteReads h i.operands).bind fun u v huv => ?_
    have hret (value : Option Operand) : SameControl (u.writeStatement (.ret value u.inFunction))
        (v.writeStatement (.ret value v.inFunction)) :=
      huv.map id (control_writeStatement u _) (control_writeStatement v _)
    cases i.operands with
    | nil => exact .succeeds (hret none)
    | cons value rest => exact alike_check (.succeeds (hret (some value)))

theorem alike_openFunction (h : SameControl s t) (hs : HeaderNamed s.control) :
    Alike SameControl (openFunction b s) (openFunction b' t) := by
  obtain ⟨s', hs', hsc⟩ := openFunction_named b s hs
  obtain ⟨t', ht', htc⟩ := openFunction_named b' t (h ▸ hs)
  rw [hs', ht']
  exact .succeeds (h.map Control.enter hsc htc)

theorem Enters.headerNamed (h : Enters s s') : HeaderNamed s'.control := by
  intro header hheader
  have hnone : s'.control.header = none := h.header_eq_none
  rw [hnone] at hheader
  cases hheader

theorem Performs.headerNamed (h : Performs b upcoming s i s') (hi : i.hasFields)
    (hs : HeaderNamed s.control) : HeaderNamed s'.control := by
  have huse (s : EmissionState) (n : Name) (type : ValueType) :
      (s.noteUse b n type).header = s.header := congrArg Control.header (control_noteUse b s n type)
  have hclose (s : EmissionState) : (s.closeBlock b).header = s.header :=
    congrArg Control.header (control_closeBlock b s)
  -- Only the instructions of a function's header touch the pending header.
  have hframe (hheader : s'.header = s.header) : HeaderNamed s'.control :=
    fun header hh => hs header (hheader.symm.trans hh)
  cases h with
  | func =>
    intro header hheader
    cases hheader
    rfl
  | @param old ho hheader =>
    intro header hh
    have hold := hs old hheader
    simp only [Instruction.hasFields, ho] at hi
    cases hh
    simp [hold, hi]
  | mov _ _ hreads | binary _ _ hreads =>
    exact hframe ((huse _ _ _).trans (noteReads_frame huse hreads))
  | cmp _ _ hreads | ret _ hreads =>
    have hread := noteReads_frame huse hreads
    exact hframe hread
  | jumpClosing => exact hframe (hclose _)
  | labelClosing | endFunc => exact hframe (hclose s)
  | _ => exact hframe rfl

theorem headerNamed_step (h : step b upcoming s i = .ok s') (hi : i.hasFields)
    (hs : HeaderNamed s.control) : HeaderNamed s'.control := by
  obtain ⟨t, u, henter, -, hperforms, rfl⟩ := step_cases h
  have ht : HeaderNamed t.control := by
    rcases henter with ⟨-, rfl⟩ | ⟨-, henters⟩
    · exact hs
    · exact henters.headerNamed
  exact hperforms.headerNamed hi ht

/-- States of two languages that are in step: everything but the lines and the types agrees, and the
depths differ by as much as those at which the languages begin. -/
structure InStep (b b' : Backend) (s t : EmissionState) : Prop where
  control : SameControl s t
  naming : s.naming = t.naming
  depths : s.depthTrace.map (· + b'.baseDepth) = t.depthTrace.map (· + b.baseDepth)
  headerNamed : HeaderNamed s.control
  nested : s.IsNested b
  nested' : t.IsNested b'

/-- As many open blocks are as many levels, above the base depth of each language. -/
theorem SameControl.depth (h : SameControl s t) (hs : s.IsNested b) (ht : t.IsNested b') :
    s.depth + b'.baseDepth = t.depth + b.baseDepth := by
  have hlength : s.blocks.length = t.blocks.length := by
    simpa [EmissionState.control] using congrArg (·.blocks.length) h
  have hs := nested_length hs
  have ht := nested_length ht
  omega

/-- One instruction keeps two languages in step. -/
theorem alike_step (h : InStep b b' s t) (hi : i.hasFields)
    (hu : ∀ j, upcoming = some j → j.hasFields) :
    Alike (InStep b b') (step b upcoming s i) (step b' upcoming t i) := by
  have hmov (j : Instruction) (hj : upcoming = some j) (hop : j.opcode = .mov) :
      j.operands ≠ [] := by
    have hfields := hu j hj
    simp only [Instruction.hasFields, hop, Bool.and_eq_true] at hfields
    simpa using hfields.2
  have hsame : Alike SameControl (step b upcoming s i) (step b' upcoming t i) := by
    rw [step_eq, step_eq]
    have henter : Alike SameControl (if i.opcode = .param then .ok s else openFunction b s)
        (if i.opcode = .param then .ok t else openFunction b' t) := by
      split
      · exact .succeeds h.control
      · exact alike_openFunction h.control h.headerNamed
    refine henter.bind fun u v huv => ?_
    have hcheck : u.control.checkTested i = v.control.checkTested i := by rw [huv]
    rw [hcheck]
    exact alike_check ((alike_perform huv hmov).bind fun u' v' huv' => .succeeds huv')
  cases hs : step b upcoming s i with
  | error e =>
    rw [hs] at hsame
    rw [(hsame.error_iff e).mp rfl]
    exact .fails e
  | ok s' =>
    rw [hs] at hsame
    obtain ⟨t', ht⟩ := hsame.ok_iff.mp ⟨s', rfl⟩
    rw [ht]
    have hcontrol : SameControl s' t' := hsame.related rfl ht
    have hnested := isNested_step hs h.nested
    have hnested' := isNested_step ht h.nested'
    refine .succeeds ⟨hcontrol, ?_, ?_, headerNamed_step hs hi h.headerNamed, hnested, hnested'⟩
    · rw [naming_step hs, naming_step ht, h.naming]
    · rw [depthTrace_step hs, depthTrace_step ht, List.map_append, List.map_append, h.depths,
        List.map_singleton, List.map_singleton, hcontrol.depth hnested hnested']

/-- Two languages are in step after every prefix of a stream, or have refused it alike. -/
theorem alike_after (h : InStep b b' s t) (hi : ∀ i ∈ is, i.hasFields) (hk : k ≤ is.length) :
    Alike (InStep b b') (after b s is k) (after b' t is k) := by
  induction k with
  | zero =>
    rw [after_zero, after_zero]
    exact .succeeds h
  | succ k ih =>
    have hget : is[k]? = some is[k] := List.getElem?_eq_getElem hk
    rw [after_succ hget, after_succ hget]
    refine (ih (by omega)).bind fun u v huv => ?_
    exact alike_step huv (hi _ (List.getElem_mem hk)) fun j hj => hi j (List.mem_of_getElem? hj)

theorem inStep_initial (b b' : Backend) : InStep b b' (initial b) (initial b') where
  control := rfl
  naming := rfl
  depths := rfl
  headerNamed := by
    intro header hheader
    cases hheader
  nested := rfl
  nested' := rfl

theorem alike_emit (hi : ∀ i ∈ is, i.hasFields) : Alike SameControl (emit b is) (emit b' is) := by
  unfold emit
  rw [run_eq_after, run_eq_after]
  refine (alike_after (inStep_initial b b') hi le_rfl).bind fun u v huv => .of_map_eq ?_
  rw [control_finish b huv.headerNamed, control_finish b' (huv.control ▸ huv.headerNamed),
    huv.control]

/-- The trace has one depth for every instruction. -/
theorem length_depthTrace_after (hk : k ≤ is.length) (h : after b (initial b) is k = .ok s) :
    s.depthTrace.length = k := by
  refine after_invariant (P := fun k t => t.depthTrace.length = k) rfl ?_ hk h
  intro k i t t' _ ht hstep
  rw [depthTrace_step hstep, List.length_append, List.length_singleton, ht]

end Emission

open Emission EmissionState in
/-- The target languages run through every stream whose instructions have their fields in the same
way: they accept or refuse it alike, with the same error. Where they accept it, they agree after
every instruction on the open blocks, the labels, the declared and the hoisted names; and the depths
that they note, one for each instruction, differ throughout by the difference of their base
depths. -/
theorem backends_run_in_step (is : List Instruction) (hfields : ∀ i ∈ is, i.hasFields) :
    ((∃ s, emit .python is = .ok s) ↔ ∃ t, emit .cpp is = .ok t) ∧
    (∀ e, emit .python is = .error e ↔ emit .cpp is = .error e) ∧
    ∀ s t, emit .python is = .ok s → emit .cpp is = .ok t →
      s.depthTrace.length = is.length ∧
      t.depthTrace = s.depthTrace.map (· + (Backend.cpp.baseDepth - Backend.python.baseDepth)) ∧
      ∀ k ≤ is.length, ∃ p c,
        after .python (initial .python) is k = .ok p ∧ after .cpp (initial .cpp) is k = .ok c ∧
        p.control = c.control ∧ p.naming = c.naming := by
  have hemit : Alike SameControl (emit .python is) (emit .cpp is) := alike_emit hfields
  refine ⟨hemit.ok_iff, hemit.error_iff, fun s t hs ht => ?_⟩
  obtain ⟨hs, -⟩ := after_length_of_emit hs
  obtain ⟨ht, -⟩ := after_length_of_emit ht
  have halike {k : Nat} (hk : k ≤ is.length) : Alike (InStep .python .cpp)
      (after .python (initial .python) is k) (after .cpp (initial .cpp) is k) :=
    alike_after (inStep_initial .python .cpp) hfields hk
  refine ⟨length_depthTrace_after le_rfl hs, ?_, fun k hk => ?_⟩
  · have hdepths := ((halike le_rfl).related hs ht).depths
    simp only [Backend.baseDepth, Nat.add_zero, List.map_id'] at hdepths
    exact hdepths.symm
  · obtain ⟨p, hp⟩ := exists_after (run_eq_after.trans hs) hk
    obtain ⟨c, hc⟩ := exists_after (run_eq_after.trans ht) hk
    have hstep := (halike hk).related hp hc
    exact ⟨p, c, hp, hc, hstep.control, hstep.naming⟩

/-- A function that declares a name twice in one block, which one of the languages may not write. -/
def declaresTwice : List Instruction :=
  let read (s : String) := Operand.var (.text s)
  let loc := Location.unknown
  [.func "f" loc, .param "n" loc, .cmp (read "n") loc, .jumpIfFalse "L0" loc, .decl "x" loc,
    .decl "x" loc, .mov "x" (read "y") loc, .jump "L1" loc, .mark "L0",
    .ret (some (read "x")) loc, .mark "L1", .endFunc loc]

open Emission EmissionState in
theorem backends_run_declaresTwice_in_step :
    (∀ i ∈ declaresTwice, i.hasFields) ∧
    ∃ s t, emit .python declaresTwice = .ok s ∧ emit .cpp declaresTwice = .ok t ∧
      s.depthTrace.length = declaresTwice.length ∧
      t.depthTrace = s.depthTrace.map (· + (Backend.cpp.baseDepth - Backend.python.baseDepth)) ∧
      ∃ p c, after .python (initial .python) declaresTwice 8 = .ok p ∧
        after .cpp (initial .cpp) declaresTwice 8 = .ok c ∧
        p.control = c.control ∧ p.naming = c.naming := by
  have hfields : ∀ i ∈ declaresTwice, i.hasFields := by decide
  obtain ⟨hok, -, hagree⟩ := backends_run_in_step declaresTwice hfields
  have hpython : ∃ s, emit .python declaresTwice = .ok s := ⟨_, rfl⟩
  obtain ⟨s, hs⟩ := hpython
  obtain ⟨t, ht⟩ := hok.mp ⟨s, hs⟩
  obtain ⟨hlength, hdepths, hafter⟩ := hagree s t hs ht
  exact ⟨hfields, s, t, hs, ht, hlength, hdepths, hafter 8 (by decide)⟩

end Sil
