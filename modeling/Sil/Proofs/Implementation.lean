import Mathlib
import Sil.Proofs.Machine

/-!
Stretches of code that do what an effect says. From environments that differ in temporaries at most,
the code gets to where the effect leads, and if the machine stops at all, the effect leads
somewhere. The second half matters for loops: code that runs on for ever has no effect, and code
that stops has one. Effects that are put together are implemented by code that is.
-/
namespace Sil.Interpretation
open Effect

variable {V : Type*} (I : Interpretation V) (program : List Instruction)

/-- The machine gets to a position, or to a return, as the outcome says. -/
def Arrives (s : MachineState V) (q : Nat) : Outcome V → Env V → Prop
  | .normal, m => I.Reaches program s ⟨q, m, none⟩
  | .returned v, m =>
    ∃ s', I.Reaches program s s' ∧ I.step program s' = some (.halted (.returned v) m)

structure Implements (p q : Nat) (X : Effect V) : Prop where
  arrives : ∀ {m e e' : Env V} {o : Outcome V}, Agree m e → X e o e' →
    ∃ m', I.Arrives program ⟨p, m, none⟩ q o m' ∧ Agree m' e'
  ends : ∀ {m e : Env V} {k : Nat} {r : Outcome V × Env V}, Agree m e →
    I.run program k ⟨p, m, none⟩ = some r → ∃ o e', X e o e'

/-- From a position, the program goes to one of two others by a test, which always has an answer. -/
def Branches (p yes no : Nat) (test : Env V → Bool → Env V → Prop) : Prop :=
  ∀ ⦃m e : Env V⦄, Agree m e → ∃ b e' m', (∀ b₁ e₁, test e b₁ e₁ ↔ b₁ = b ∧ e₁ = e') ∧
    I.Reaches program ⟨p, m, none⟩ ⟨if b then yes else no, m', none⟩ ∧ Agree m' e'

variable {I program} {p q q' r yes no : Nat} {X Y : Effect V} {test : Env V → Bool → Env V → Prop}

theorem Arrives.of_reaches {s s' : MachineState V} {o : Outcome V} {m : Env V}
    (hs : I.Reaches program s s') (h : I.Arrives program s' q o m) : I.Arrives program s q o m := by
  cases o with
  | normal => exact hs.trans h
  | returned v =>
    obtain ⟨s'', hs', hstep⟩ := h
    exact ⟨s'', hs.trans hs', hstep⟩

theorem Branches.comingFrom (h : ∀ m, I.Reaches program ⟨q, m, none⟩ ⟨p, m, none⟩)
    (htest : I.Branches program p yes no test) : I.Branches program q yes no test := by
  intro m e hm
  obtain ⟨b, e', m', honly, hreach, hm'⟩ := htest hm
  exact ⟨b, e', m', honly, (h m).trans hreach, hm'⟩

namespace Implements

/-- Code that has one outcome from every environment. -/
theorem of_total (h : ∀ ⦃m e : Env V⦄, Agree m e → ∃ o e' m',
    (∀ o₁ e₁, X e o₁ e₁ ↔ o₁ = o ∧ e₁ = e') ∧ I.Arrives program ⟨p, m, none⟩ q o m' ∧
      Agree m' e') : I.Implements program p q X where
  arrives := by
    intro m e e₁ o₁ hm hX
    obtain ⟨o, e', m', honly, harrives, hm'⟩ := h hm
    obtain ⟨rfl, rfl⟩ := (honly _ _).mp hX
    exact ⟨m', harrives, hm'⟩
  ends := by
    intro m e k r hm _
    obtain ⟨o, e', m', honly, -⟩ := h hm
    exact ⟨o, e', (honly _ _).mpr ⟨rfl, rfl⟩⟩

theorem skip : I.Implements program p p skip :=
  of_total fun m e hm => ⟨.normal, e, m, fun _ _ => Iff.rfl, .refl, hm⟩

theorem andThen (hX : I.Implements program p q X) (hY : I.Implements program q r Y) :
    I.Implements program p r (X.andThen Y) where
  arrives := by
    rintro m e e' o hm (⟨e₁, hfirst, hsecond⟩ | ⟨v, rfl, hfirst⟩)
    · obtain ⟨m₁, hreach, hm₁⟩ := hX.arrives hm hfirst
      obtain ⟨m', harrives, hm'⟩ := hY.arrives hm₁ hsecond
      exact ⟨m', harrives.of_reaches hreach, hm'⟩
    · exact hX.arrives hm hfirst
  ends := by
    intro m e k r hm hrun
    obtain ⟨o, e₁, hfirst⟩ := hX.ends hm hrun
    cases o with
    | returned v => exact ⟨.returned v, e₁, .inr ⟨v, rfl, hfirst⟩⟩
    | normal =>
      obtain ⟨m₁, hreach, hm₁⟩ := hX.arrives hm hfirst
      obtain ⟨j, -, hrun⟩ := run_from_reached hreach hrun
      obtain ⟨o, e', hsecond⟩ := hY.ends hm₁ hrun
      exact ⟨o, e', .inl ⟨e₁, hfirst, hsecond⟩⟩

/-- Code that goes on from its end to another position. -/
theorem goingOn (hX : I.Implements program p q X)
    (h : ∀ m, I.Reaches program ⟨q, m, none⟩ ⟨q', m, none⟩) : I.Implements program p q' X where
  arrives := by
    intro m e e' o hm heffect
    obtain ⟨m', harrives, hm'⟩ := hX.arrives hm heffect
    cases o with
    | normal => exact ⟨m', Reaches.trans harrives (h m'), hm'⟩
    | returned v => exact ⟨m', harrives, hm'⟩
  ends := hX.ends

/-- Code that is led up to from another position. -/
theorem comingFrom (h : ∀ m, I.Reaches program ⟨q', m, none⟩ ⟨p, m, none⟩)
    (hX : I.Implements program p q X) : I.Implements program q' q X where
  arrives := by
    intro m e e' o hm heffect
    obtain ⟨m', harrives, hm'⟩ := hX.arrives hm heffect
    exact ⟨m', harrives.of_reaches (h m), hm'⟩
  ends := by
    intro m e k r hm hrun
    obtain ⟨j, -, hrun⟩ := run_from_reached (h m) hrun
    exact hX.ends hm hrun

theorem choose (htest : I.Branches program p yes no test) (hX : I.Implements program yes q X)
    (hY : I.Implements program no q Y) : I.Implements program p q (choose test X Y) where
  arrives := by
    rintro m e e' o hm ⟨b, e₁, hb, heffect⟩
    obtain ⟨b', e₁', m₁, honly, hreach, hm₁⟩ := htest hm
    obtain ⟨rfl, rfl⟩ := (honly _ _).mp hb
    cases b with
    | true =>
      obtain ⟨m', harrives, hm'⟩ := hX.arrives hm₁ heffect
      exact ⟨m', harrives.of_reaches hreach, hm'⟩
    | false =>
      obtain ⟨m', harrives, hm'⟩ := hY.arrives hm₁ heffect
      exact ⟨m', harrives.of_reaches hreach, hm'⟩
  ends := by
    intro m e k r hm hrun
    obtain ⟨b, e₁, m₁, honly, hreach, hm₁⟩ := htest hm
    obtain ⟨j, -, hrun⟩ := run_from_reached hreach hrun
    have hb := (honly b e₁).mpr ⟨rfl, rfl⟩
    cases b with
    | true =>
      obtain ⟨o, e', heffect⟩ := hX.ends hm₁ hrun
      exact ⟨o, e', true, e₁, hb, heffect⟩
    | false =>
      obtain ⟨o, e', heffect⟩ := hY.ends hm₁ hrun
      exact ⟨o, e', false, e₁, hb, heffect⟩

/-- A loop: a test, a round after it where it holds, and a jump back to the test. -/
theorem repeating (htest : I.Branches program p yes no test) (hX : I.Implements program yes q X)
    (hback : ∀ m, I.step program ⟨q, m, none⟩ = some (.running ⟨p, m, none⟩)) :
    I.Implements program p no (Repeating test X) where
  arrives := by
    intro m e e' o hm heffect
    induction heffect generalizing m with
    | stop hb =>
      obtain ⟨b, e₁', m₁, honly, hreach, hm₁⟩ := htest hm
      obtain ⟨rfl, rfl⟩ := (honly _ _).mp hb
      exact ⟨m₁, hreach, hm₁⟩
    | leave hb hround =>
      obtain ⟨b, e₁', m₁, honly, hreach, hm₁⟩ := htest hm
      obtain ⟨rfl, rfl⟩ := (honly _ _).mp hb
      obtain ⟨m', ⟨s, hs, hstep⟩, hm'⟩ := hX.arrives hm₁ hround
      exact ⟨m', ⟨s, hreach.trans hs, hstep⟩, hm'⟩
    | again hb hround _ ih =>
      obtain ⟨b, e₁', m₁, honly, hreach, hm₁⟩ := htest hm
      obtain ⟨rfl, rfl⟩ := (honly _ _).mp hb
      obtain ⟨m₂, hround, hm₂⟩ := hX.arrives hm₁ hround
      obtain ⟨m', harrives, hm'⟩ := ih hm₂
      have hagain := (hreach.trans hround).step (hback m₂)
      exact ⟨m', harrives.of_reaches hagain, hm'⟩
  ends := by
    -- Each round takes instructions, so what is left of the run after it is shorter.
    intro m e k r hm hrun
    induction k using Nat.strong_induction_on generalizing m e with
    | _ k ih =>
      obtain ⟨b, e₁, m₁, honly, hreach, hm₁⟩ := htest hm
      obtain ⟨j, hj, hrun⟩ := run_from_reached hreach hrun
      have hb := (honly b e₁).mpr ⟨rfl, rfl⟩
      cases b with
      | false => exact ⟨.normal, e₁, .stop hb⟩
      | true =>
        obtain ⟨o, e₂, hround⟩ := hX.ends hm₁ hrun
        cases o with
        | returned v => exact ⟨.returned v, e₂, .leave hb hround⟩
        | normal =>
          obtain ⟨m₂, hreach, hm₂⟩ := hX.arrives hm₁ hround
          obtain ⟨i, hi, hrun⟩ := run_from_reached hreach hrun
          cases i with
          | zero => cases hrun
          | succ i =>
            rw [run_of_step (hback m₂)] at hrun
            obtain ⟨o, e', hrest⟩ := ih i (by omega) hm₂ hrun
            exact ⟨o, e', .again hb hround hrest⟩

/-- A whole program stops where its effect leads. -/
theorem halts (hX : I.Implements program 0 program.length X) {e e' : Env V} {o : Outcome V}
    (heffect : X e o e') : ∃ m, I.Halts program e o m ∧ Agree m e' := by
  obtain ⟨m, harrives, hm⟩ := hX.arrives (Agree.refl e) heffect
  suffices hstops : ∃ s, I.Reaches program ⟨0, e, none⟩ s ∧ I.step program s = some (.halted o m) by
    obtain ⟨s, hreach, hstep⟩ := hstops
    have hrun : I.run program 1 s = some (o, m) := by rw [run, hstep]
    exact ⟨m, run_of_reached hreach hrun, hm⟩
  cases o with
  | normal => exact ⟨_, harrives, step_end (List.getElem?_eq_none le_rfl)⟩
  | returned v => exact harrives

end Implements
end Sil.Interpretation
