import Mathlib
import Sil.Concrete.Build

/-!
Which error of a concrete tree is reported. The search goes down into the first child that has an
error and never comes back, so it finds the first error of the tree if the nodes say truly where
errors are. It takes a part of the stack for every level, and nothing catches its overflow. Main
statement: in a truly flagged tree a refusal names the first error in preorder exactly if the search
reaches its level; a deeper one is not reported at all.
-/
namespace Sil

namespace ConcreteTree

mutual

/-- The nodes of a tree with their levels, each before those below it and the children from left to
right. -/
def leveled (level : Nat) : ConcreteTree → List (Nat × ConcreteTree)
  | .node kind extent named field standing children =>
    (level, .node kind extent named field standing children) :: leveledAll (level + 1) children

def leveledAll (level : Nat) : List ConcreteTree → List (Nat × ConcreteTree)
  | [] => []
  | t :: rest => leveled level t ++ leveledAll level rest

end

def preorder (t : ConcreteTree) : List ConcreteTree := (t.leveled 0).map Prod.snd

/-- Every node says that it has an error exactly if it or a node below it is an error or missing. -/
def FlagsExact (t : ConcreteTree) : Prop :=
  ∀ n ∈ t.preorder, n.hasError ↔ ∃ m ∈ n.preorder, m.isBroken

/-- What holds of a node as soon as it holds of its children holds of every tree. -/
@[elab_as_elim]
theorem children_induction {P : ConcreteTree → Prop}
    (node : ∀ t : ConcreteTree, (∀ c ∈ t.children, P c) → P t) (t : ConcreteTree) : P t :=
  @ConcreteTree.rec P (fun ts => ∀ c ∈ ts, P c) (fun _ _ _ _ _ _ ih => node _ ih)
    (List.forall_mem_nil P) (fun _ _ ht hrest => List.forall_mem_cons.mpr ⟨ht, hrest⟩) t

variable {t c : ConcreteTree}

theorem leveled_eq (level : Nat) (t : ConcreteTree) :
    t.leveled level = (level, t) :: t.children.flatMap (leveled (level + 1)) := by
  have hall (ts : List ConcreteTree) :
      leveledAll (level + 1) ts = ts.flatMap (leveled (level + 1)) := by
    induction ts with
    | nil => rfl
    | cons t rest ih => rw [leveledAll, ih, List.flatMap_cons]
  cases t
  rw [leveled, hall]
  rfl

theorem map_snd_leveled (level : Nat) (t : ConcreteTree) :
    (t.leveled level).map Prod.snd = t.preorder := by
  induction t using children_induction generalizing level with
  | node t ih =>
    rw [preorder, leveled_eq, leveled_eq 0, List.map_cons, List.map_cons, List.map_flatMap,
      List.map_flatMap]
    congr 1
    refine List.flatMap_congr fun c hc => ?_
    rw [ih c hc, ih c hc]

theorem preorder_eq (t : ConcreteTree) : t.preorder = t :: t.children.flatMap preorder := by
  rw [preorder, leveled_eq, List.map_cons, List.map_flatMap]
  simp only [map_snd_leveled]

theorem FlagsExact.self (h : t.FlagsExact) : t.hasError ↔ ∃ m ∈ t.preorder, m.isBroken :=
  h t (by simp [preorder_eq t])

theorem FlagsExact.child (h : t.FlagsExact) (hc : c ∈ t.children) : c.FlagsExact := by
  intro n hn
  refine h n ?_
  rw [preorder_eq t]
  exact List.mem_cons_of_mem t (List.mem_flatMap.mpr ⟨c, hc, hn⟩)

/-- Flags are exact if they are below and the root says what its children say. -/
theorem flagsExact_of_children (hself : t.hasError ↔ t.isBroken ∨ ∃ c ∈ t.children, c.hasError)
    (h : ∀ c ∈ t.children, c.FlagsExact) : t.FlagsExact := by
  intro n hn
  rw [preorder_eq] at hn
  rcases List.mem_cons.mp hn with rfl | hbelow
  · rw [hself, preorder_eq]
    have hchildren : (∃ c ∈ n.children, c.hasError) ↔
        ∃ m ∈ n.children.flatMap preorder, m.isBroken := by
      constructor
      · rintro ⟨c, hc, herror⟩
        obtain ⟨m, hm, hbroken⟩ := (h c hc).self.mp herror
        exact ⟨m, List.mem_flatMap.mpr ⟨c, hc, hm⟩, hbroken⟩
      · rintro ⟨m, hm, hbroken⟩
        obtain ⟨c, hc, hm⟩ := List.mem_flatMap.mp hm
        exact ⟨c, hc, (h c hc).self.mpr ⟨m, hm, hbroken⟩⟩
    rw [hchildren]
    simp
  · obtain ⟨c, hc, hn⟩ := List.mem_flatMap.mp hbelow
    exact h c hc n hn

/-- A node that is not broken but has an error has a first child with one. -/
theorem FlagsExact.exists_child (h : t.FlagsExact) (herror : t.hasError)
    (hbroken : t.isBroken = false) : ∃ c, t.children.find? hasError = some c := by
  obtain ⟨m, hm, hbad⟩ := h.self.mp herror
  rw [preorder_eq] at hm
  rcases List.mem_cons.mp hm with rfl | hm
  · rw [hbroken] at hbad
    cases hbad
  · obtain ⟨c, hc, hm⟩ := List.mem_flatMap.mp hm
    rw [← Option.isSome_iff_exists, List.find?_isSome]
    exact ⟨c, hc, (h.child hc).self.mpr ⟨m, hm, hbad⟩⟩

theorem FlagsExact.find?_eq_none (h : t.FlagsExact) (hclean : t.hasError = false) (level : Nat) :
    (t.leveled level).find? (·.2.isBroken) = none := by
  rw [List.find?_eq_none]
  intro p hp hbroken
  have herror := h.self.mpr ⟨p.2, by
    rw [← map_snd_leveled level]
    exact List.mem_map_of_mem hp, hbroken⟩
  rw [hclean] at herror
  cases herror

/-- In a tree with exact flags and an error, the first broken node in preorder stands some levels
below the root, and the search finds it exactly if it can go so deep. -/
theorem find?_leveled (h : t.FlagsExact) (herror : t.hasError) (level : Nat) : ∃ below bad,
    (t.leveled level).find? (·.2.isBroken) = some (level + below, bad) ∧
      ∀ room, t.firstError? room = if below < room then some bad else none := by
  induction t using children_induction generalizing level with
  | node t ih =>
    rw [leveled_eq, List.find?_cons]
    cases hbroken : t.isBroken with
    | true =>
      refine ⟨0, t, rfl, fun room => ?_⟩
      cases room with
      | zero => rfl
      | succ room => simp [firstError?, hbroken]
    | false =>
      obtain ⟨c, hfind⟩ := h.exists_child herror hbroken
      obtain ⟨hc, before, after, hsplit, hbefore⟩ := List.find?_eq_some_iff_append.mp hfind
      have hmem : c ∈ t.children := by simp [hsplit]
      obtain ⟨below, bad, hfirst, hsearch⟩ := ih c hmem (h.child hmem) hc (level + 1)
      -- The children before it have no error, so the first one is below this child.
      have hnone : (before.flatMap (leveled (level + 1))).find? (·.2.isBroken) = none := by
        rw [List.find?_flatMap, List.findSome?_eq_none_iff]
        intro d hd
        refine (h.child (by simp [hsplit, hd])).find?_eq_none ?_ _
        simpa using hbefore d hd
      refine ⟨below + 1, bad, ?_, fun room => ?_⟩
      · rw [hsplit, List.flatMap_append, List.find?_append, hnone, Option.none_or,
          List.flatMap_cons, List.find?_append, hfirst, Option.some_or, Nat.add_right_comm,
          Nat.add_assoc]
      · cases room with
        | zero => rfl
        | succ room => simp [firstError?, hbroken, hfind, hsearch]

end ConcreteTree

theorem Concrete.text_complaint (bad : ConcreteTree) : (complaint bad).text =
    if bad.standing.isMissing then ": missing " ++ bad.kind else ": unexpected input" := by
  rw [complaint]
  split <;> rfl

theorem Error.report_badSyntax (detail : SyntaxDetail) (loc : Location) :
    Error.report (.badSyntax detail (some loc)) =
      if loc.isWritable then
        .ok ("Syntax error" ++ detail.text ++ Location.suffixText (some loc))
      else .error (.digitLimit none) :=
  rfl

/-- A tree that is flagged truly and has an error is refused at its first broken node in preorder if
the search for it can go down to its level, and otherwise fails without a place. -/
theorem first_error_reported_iff (limits : Limits) (source : ByteArray) {root : ConcreteTree}
    (hflags : root.FlagsExact) (herror : root.hasError) : ∃ before level bad after,
      root.leveled 0 = before ++ (level, bad) :: after ∧
      (∀ p ∈ before, p.2.isBroken = false) ∧ bad.isBroken ∧
      (root.firstError? limits.search = some bad ↔ level < limits.search) ∧
      (level < limits.search → ∃ detail,
        Node.ofConcrete limits source root = .error (.badSyntax detail (some bad.location)) ∧
        detail = (if bad.standing.isMissing then .missing bad.kind else .unexpectedInput) ∧
        Error.report (.badSyntax detail (some bad.location)) =
          if bad.location.isWritable then
            .ok ("Syntax error" ++ (if bad.standing.isMissing then ": missing " ++ bad.kind
              else ": unexpected input") ++ Location.suffixText (some bad.location))
          else .error (.digitLimit none)) ∧
      (limits.search ≤ level →
        Node.ofConcrete limits source root = .error (.fault .depthExceeded)) := by
  obtain ⟨level, bad, hfirst, hsearch⟩ := ConcreteTree.find?_leveled hflags herror 0
  rw [Nat.zero_add] at hfirst
  obtain ⟨hbroken, before, after, hsplit, hbefore⟩ := List.find?_eq_some_iff_append.mp hfirst
  have hrefused : Node.ofConcrete limits source root =
      .error (Concrete.brokenTree limits.search root) := by
    rw [Node.ofConcrete, if_pos herror]
    rfl
  rw [hrefused, Concrete.brokenTree, hsearch]
  refine ⟨before, level, bad, after, hsplit, by simpa using hbefore, hbroken, by simp, ?_, ?_⟩
  · intro hlevel
    rw [if_pos hlevel]
    refine ⟨Concrete.complaint bad, rfl, rfl, ?_⟩
    rw [Error.report_badSyntax, Concrete.text_complaint]
  · intro hlevel
    rw [if_neg (Nat.not_lt.mpr hlevel)]

/-- A statement without an error, one in which a parenthesis is missing, and input that fits
nowhere. -/
def brokenTwice : ConcreteTree :=
  .node "program" ⟨0, 9, 0, 0, 0, 9⟩ true none {}
    [.node "expression_statement" ⟨0, 2, 0, 0, 0, 2⟩ true none {}
      [.node "identifier" ⟨0, 1, 0, 0, 0, 1⟩ true none {} []],
    .node "expression_statement" ⟨3, 5, 0, 3, 0, 5⟩ true none { saidToHoldError := true }
      [.node "parenthesized_expression" ⟨3, 5, 0, 3, 0, 5⟩ true none {}
        [.node "identifier" ⟨4, 5, 0, 4, 0, 5⟩ true none {} [],
        .node ")" ⟨5, 5, 0, 5, 0, 5⟩ false none { isMissing := true } []]],
    .node "ERROR" ⟨6, 9, 0, 6, 0, 9⟩ true none { isError := true } []]

theorem brokenTwice_reports_parenthesis : brokenTwice.FlagsExact ∧ brokenTwice.hasError ∧
    ∀ source, Node.ofConcrete {} source brokenTwice =
      .error (.badSyntax (.missing ")") (some ⟨1, 5, 1, 5⟩)) := by
  have hflags : brokenTwice.FlagsExact := by
    unfold ConcreteTree.FlagsExact
    decide
  refine ⟨hflags, rfl, fun source => ?_⟩
  obtain ⟨before, level, bad, after, hsplit, hbefore, hbroken, -, hreported, -⟩ :=
    first_error_reported_iff {} source hflags rfl
  have hfirst : (brokenTwice.leveled 0).find? (·.2.isBroken) = some (level, bad) :=
    List.find?_eq_some_iff_append.mpr ⟨hbroken, before, after, hsplit, by simpa using hbefore⟩
  cases hfirst
  obtain ⟨detail, hbuild, rfl, -⟩ := hreported (by decide)
  exact hbuild

/-- Input that fits nowhere inside many parentheses. -/
def nestedError : Nat → ConcreteTree
  | 0 => .node "ERROR" ⟨0, 0, 0, 0, 0, 0⟩ true none { isError := true } []
  | levels + 1 =>
    .node "parenthesized_expression" ⟨0, 0, 0, 0, 0, 0⟩ true none {} [nestedError levels]

theorem hasError_nestedError (levels : Nat) : (nestedError levels).hasError := by
  induction levels with
  | zero => rfl
  | succ levels ih => simp [nestedError, ConcreteTree.hasError, ConcreteTree.anyHasError, ih]

theorem flagsExact_nestedError (levels : Nat) : (nestedError levels).FlagsExact := by
  induction levels with
  | zero =>
    unfold ConcreteTree.FlagsExact
    decide
  | succ levels ih =>
    refine ConcreteTree.flagsExact_of_children ?_ ?_
    · simpa [nestedError, ConcreteTree.children, hasError_nestedError] using
        hasError_nestedError (levels + 1)
    · simpa [nestedError, ConcreteTree.children] using ih

theorem firstError?_nestedError (room levels : Nat) :
    (nestedError (room + levels)).firstError? room = none := by
  induction room with
  | zero => rfl
  | succ room ih =>
    rw [Nat.add_right_comm, nestedError, ConcreteTree.firstError?]
    simpa [ConcreteTree.isBroken, ConcreteTree.standing, ConcreteTree.children,
      hasError_nestedError] using ih

/-- The error inside 1500 parentheses is flagged on every level, and nothing reports it. -/
theorem nestedError_not_reported : (nestedError 1500).FlagsExact ∧ (nestedError 1500).hasError ∧
    ∀ source, Node.ofConcrete {} source (nestedError 1500) = .error (.fault .depthExceeded) := by
  refine ⟨flagsExact_nestedError _, hasError_nestedError _, fun source => ?_⟩
  rw [Node.ofConcrete, if_pos (hasError_nestedError _)]
  show Except.error (Concrete.brokenTree 960 (nestedError (960 + 540))) = _
  rw [Concrete.brokenTree, firstError?_nestedError]

end Sil
