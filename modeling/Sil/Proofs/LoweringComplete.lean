import Mathlib
import Sil.Proofs.LoweringRules

/-!
The rules allow nothing that lowering does not do: the code of a phrase that follows the rules is
the code that lowering makes for it, from the same counters and with enough room to nest. Together
with `lowers_of_statement` this makes the rules another definition of lowering.
-/
namespace Sil.Lowering
open Counters

def Segment.IsLowered (room : Nat) (s : Segment) : Prop :=
  match s.phrase with
  | .expr n value => expression ⟨room, s.inFunction⟩ s.before n = .ok (s.code, value, s.after)
  | .stmt n => statement ⟨room, s.inFunction⟩ s.before n = .ok (s.code, s.after)
  | .stmts ns => statements ⟨room, s.inFunction⟩ s.before ns = .ok (s.code, s.after)
  | .update none => s.code = [] ∧ s.after = s.before
  | .update (some n) =>
    ∃ value, expression ⟨room, s.inFunction⟩ s.before n = .ok (s.code, value, s.after)

/-- Parts that each are lowered in enough room have enough room together. -/
private theorem exists_common_room {ps : List Piece}
    (h : EachPart (fun t => ∃ r, ∀ room ≥ r, t.IsLowered room) ps) :
    ∃ r, ∀ room ≥ r, EachPart (Segment.IsLowered room) ps := by
  induction ps with
  | nil => exact ⟨0, fun room _ => trivial⟩
  | cons p ps ih =>
    cases p with
    | own i => exact ih h
    | part t =>
      obtain ⟨⟨r, hr⟩, hrest⟩ := h
      obtain ⟨r', hr'⟩ := ih hrest
      exact ⟨max r r', fun room hroom => ⟨hr room (le_of_max_le_left hroom),
        hr' room (le_of_max_le_right hroom)⟩⟩

private theorem statements_singleton (s : Scope) (c : Counters) (n : Node) :
    statements s c [n] = statement s c n := by
  rw [statements]
  cases statement s c n <;> simp [statements, bind, Except.bind, pure, Except.pure]

/-- The code of a `for` loop from that of its parts; its test may be missing. -/
private theorem statement_forLoop {room : Nat} {f : Bool} {c c₁ c₂ c₃ c₄ : Counters}
    (loc : Option Location) {init test update : Option Node} {body : Node}
    {initCode testCode code updateCode : List Instruction}
    (hi : Segment.IsLowered room ⟨f, c, .stmts init.toList, initCode, c₁⟩)
    (ht : (test = none ∧ testCode = [] ∧ c₂ = ⟨c₁.temps, c₁.labels + 2⟩) ∨
      ∃ n tested nCode, test = some n ∧
        expression ⟨room, f⟩ ⟨c₁.temps, c₁.labels + 2⟩ n = .ok (nCode, tested, c₂) ∧
        testCode = nCode ++ [.cmp tested (loc.getD .unknown),
          .jumpIfFalse (labelName (c₁.labels + 1)) (loc.getD .unknown)])
    (hb : statement ⟨room, f⟩ c₂ body = .ok (code, c₃))
    (hu : Segment.IsLowered room ⟨f, c₃, .update update, updateCode, c₄⟩) :
    statement ⟨room + 1, f⟩ c (.forLoop loc init test update body) =
      .ok (initCode ++ .mark (labelName c₁.labels) :: testCode ++ code ++ updateCode ++
        [.jump (labelName c₁.labels) (loc.getD .unknown), .mark (labelName (c₁.labels + 1))],
        c₄) := by
  have hinner : inner ⟨room + 1, f⟩ = .ok ⟨room, f⟩ := rfl
  rw [statement, hinner]
  simp only [Segment.IsLowered] at hi hu
  rcases ht with ⟨rfl, rfl, rfl⟩ | ⟨n, tested, nCode, rfl, ht, rfl⟩
  all_goals
    rcases init with _ | init
    · simp only [Option.toList, statements, Except.ok.injEq, Prod.mk.injEq] at hi
      obtain ⟨rfl, rfl⟩ := hi
      rcases update with _ | update
      · obtain ⟨rfl, rfl⟩ := hu
        simp_all [bind, Except.bind, pure, Except.pure, freshLabel, Node.place, Node.loc]
      · obtain ⟨value, hu⟩ := hu
        simp_all [bind, Except.bind, pure, Except.pure, freshLabel, Node.place, Node.loc]
    · simp only [Option.toList, statements_singleton] at hi
      rcases update with _ | update
      · obtain ⟨rfl, rfl⟩ := hu
        simp_all [bind, Except.bind, pure, Except.pure, freshLabel, Node.place, Node.loc]
      · obtain ⟨value, hu⟩ := hu
        simp_all [bind, Except.bind, pure, Except.pure, freshLabel, Node.place, Node.loc]

/-- A rule does what lowering does one level further out. -/
theorem isLowered_of_rule {f : Bool} {c c' : Counters} {p : Phrase} {pieces : List Piece}
    (rule : Rule f c p pieces c') {room : Nat} (parts : EachPart (Segment.IsLowered room) pieces)
    (parts' : EachPart (Segment.IsLowered (room + 1)) pieces) :
    Segment.IsLowered (room + 1) ⟨f, c, p, codeOf pieces, c'⟩ := by
  have hinner : inner ⟨room + 1, f⟩ = .ok ⟨room, f⟩ := rfl
  cases rule with
  | literal h =>
    show expression _ _ _ = _
    rw [expression, hinner]
    simp [h, bind, Except.bind, pure, Except.pure]
  | identifier =>
    show expression _ _ _ = _
    rw [expression, hinner]
    rfl
  | binary h =>
    obtain ⟨hl, hr, -⟩ := parts
    simp only [Segment.IsLowered] at hl hr ⊢
    rw [expression, hinner]
    simp [h, hl, hr, bind, Except.bind, pure, Except.pure, freshTemp, Node.place, Node.loc]
  | logical h =>
    obtain ⟨hl, hr, -⟩ := parts
    simp only [Segment.IsLowered] at hl hr ⊢
    rw [expression, hinner]
    simp [h, hl, hr, bind, Except.bind, pure, Except.pure, freshTemp, freshLabel, Node.place,
      Node.loc]
  | assignment =>
    obtain ⟨hr, -⟩ := parts
    simp only [Segment.IsLowered] at hr ⊢
    rw [expression, hinner]
    simp [hr, bind, Except.bind, pure, Except.pure, Node.place, Node.loc]
  | program | block | declaration =>
    obtain ⟨hbody, -⟩ := parts
    simp only [Segment.IsLowered] at hbody ⊢
    rw [statement, hinner]
    simp [hbody, bind, Except.bind]
  | declare =>
    show statement _ _ _ = _
    rw [statement, hinner]
    rfl
  | initialise =>
    obtain ⟨hinit, -⟩ := parts
    simp only [Segment.IsLowered] at hinit ⊢
    rw [statement, hinner]
    simp [hinit, bind, Except.bind, pure, Except.pure, Node.place, Node.loc]
  | expression =>
    obtain ⟨he, -⟩ := parts
    simp only [Segment.IsLowered] at he ⊢
    rw [statement, hinner]
    simp [he, bind, Except.bind, pure, Except.pure]
  | @bare _ _ _ n =>
    obtain ⟨he, -⟩ := parts'
    simp only [Segment.IsLowered] at he ⊢
    cases n with
    | literal | identifier | binary | logical | assignment | foreign =>
      rw [statement]
      simp [he, bind, Except.bind, pure, Except.pure]
    | _ =>
      rw [expression] at he
      cases he
  | conditional =>
    obtain ⟨ht, hb, -⟩ := parts
    simp only [Segment.IsLowered] at ht hb ⊢
    rw [statement, hinner]
    simp [ht, hb, bind, Except.bind, pure, Except.pure, freshLabel, Node.place, Node.loc]
  | alternative =>
    obtain ⟨ht, hb, ha, -⟩ := parts
    simp only [Segment.IsLowered] at ht hb ha ⊢
    rw [statement, hinner]
    simp [ht, hb, ha, bind, Except.bind, pure, Except.pure, freshLabel, Node.place, Node.loc]
  | whileLoop =>
    obtain ⟨ht, hb, -⟩ := parts
    simp only [Segment.IsLowered] at ht hb ⊢
    rw [statement, hinner]
    simp [ht, hb, bind, Except.bind, pure, Except.pure, freshLabel, Node.place, Node.loc]
  | @forLoop _ _ _ _ _ _ loc =>
    obtain ⟨hi, ht, hb, hu, -⟩ := parts
    have hloop := statement_forLoop loc hi (.inr ⟨_, _, _, rfl, ht, rfl⟩) hb hu
    simpa [Segment.IsLowered] using hloop
  | @endlessLoop _ _ _ _ _ loc =>
    obtain ⟨hi, hb, hu, -⟩ := parts
    have hloop := statement_forLoop loc hi (.inl ⟨rfl, rfl, rfl⟩) hb hu
    simpa [Segment.IsLowered] using hloop
  | function h =>
    obtain ⟨hb, -⟩ := (eachPart_own _ _).mp parts
    simp only [Segment.IsLowered] at hb ⊢
    rw [statement, hinner]
    simp [h, hb, bind, Except.bind, pure, Except.pure, Node.place, Node.loc]
  | ret =>
    show statement _ _ _ = _
    rw [statement, hinner]
    rfl
  | retValue =>
    obtain ⟨ha, -⟩ := parts
    simp only [Segment.IsLowered] at ha ⊢
    rw [statement, hinner]
    simp [ha, bind, Except.bind, pure, Except.pure, Node.place, Node.loc]
  | nil => rfl
  | cons =>
    obtain ⟨hn, hrest, -⟩ := parts'
    simp only [Segment.IsLowered] at hn hrest ⊢
    rw [statements]
    simp [hn, hrest, bind, Except.bind, pure, Except.pure]
  | noUpdate => exact ⟨rfl, rfl⟩
  | someUpdate =>
    obtain ⟨he, -⟩ := parts'
    simp only [Segment.IsLowered] at he ⊢
    exact ⟨_, by simpa using he⟩

/-- The code of a phrase that follows the rules is made by lowering, where there is room enough. -/
theorem Lowers.isLowered {s : Segment} (h : Lowers s) : ∃ r, ∀ room ≥ r, s.IsLowered room := by
  induction h with
  | intro rule parts ih =>
    obtain ⟨r, hr⟩ := exists_common_room (eachPart_iff.mpr ih)
    refine ⟨r + 1, fun room hroom => ?_⟩
    cases room with
    | zero => omega
    | succ room => exact isLowered_of_rule rule (hr room (by omega)) (hr (room + 1) (by omega))

end Sil.Lowering
