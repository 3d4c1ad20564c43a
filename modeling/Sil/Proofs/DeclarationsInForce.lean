import Mathlib
import Sil.Proofs.DeclaredOnce
import Sil.Proofs.Indentation

/-!
The declaration of a name that is in force at a line of the typed text. Block scoping searches the
innermost open block first and the hoisted names last; `inForce` is what it finds. `latest` is the
type on the last line that declares the name, whether its block is still open or not. The two agree
as long as no block closes around that line and no parameter hides it.
-/
namespace Sil

/-- A declaration as block scoping sees it: a name, and the type written with it. A parameter has
none. -/
abbrev Declaration := Name × Option ValueType

namespace Name

variable {m n : Name} {type : ValueType} {types : List (Name × ValueType)}

theorem typeIn?_append :
    n.typeIn? (types ++ [(m, type)]) =
      (n.typeIn? types).or (if m.same n then some type else none) := by
  unfold typeIn?
  rw [List.find?_append, Option.map_or]
  cases h : m.same n <;> simp [h]

theorem isSome_typeIn? : (n.typeIn? types).isSome ↔ n.isIn (types.map (·.1)) := by
  simp [typeIn?, isIn]

/-- A type that is set is found by every name that is the same. -/
theorem typeIn?_setTypeIn :
    n.typeIn? (m.setTypeIn type types) = if m.same n then some type else n.typeIn? types := by
  induction types with
  | nil => cases h : m.same n <;> simp [setTypeIn, typeIn?, h]
  | cons entry rest ih =>
    obtain ⟨k, old⟩ := entry
    have hcons (t : ValueType) (tail : List (Name × ValueType)) :
        n.typeIn? ((k, t) :: tail) = if k.same n then some t else n.typeIn? tail := by
      cases h : k.same n <;> simp [typeIn?, h]
    unfold setTypeIn
    by_cases hkm : k.same m
    · rw [if_pos hkm, hcons, hcons]
      have hsame : k.same n ↔ m.same n :=
        ⟨fun h => same_trans (same_symm hkm) h, fun h => same_trans hkm h⟩
      by_cases hmn : m.same n
      · rw [if_pos (hsame.mpr hmn), if_pos hmn]
      · rw [if_neg (hsame.not.mpr hmn), if_neg hmn, if_neg (hsame.not.mpr hmn)]
    · rw [if_neg hkm, hcons, hcons, ih]
      by_cases hmn : m.same n
      · have hkn : ¬ k.same n := fun h => hkm (same_trans h (same_symm hmn))
        rw [if_neg hkn, if_pos hmn, if_pos hmn]
      · rw [if_neg hmn, if_neg hmn]

end Name

namespace Content

/-- What a line does to the declarations of the open blocks, the innermost block first. -/
def declarations : Content → List (List Declaration) → List (List Declaration)
  | .declare type n, scopes => scopes.modifyHead (· ++ [(n, some type)])
  | .openBranch .., scopes => [] :: scopes
  | .openFunction _ params, scopes => params.map (·, none) :: scopes
  | .close _, scopes => scopes.tail
  | _, scopes => scopes

def declarationsAfter (text : List Content) : List (List Declaration) :=
  text.foldl (fun scopes c => c.declarations scopes) [[]]

/-- What the declaration of a name that is visible in some blocks says of its type: the innermost
block is searched first, and the hoisted names last. Nothing where no declaration is visible. -/
def visible (top : List (Name × ValueType)) (scopes : List (List Declaration)) (n : Name) :
    Option (Option ValueType) :=
  ((scopes.flatten ++ top.map fun d => (d.1, some d.2)).find? (·.1.same n)).map (·.2)

def inForce (top : List (Name × ValueType)) (text : List Content) (n : Name) :
    Option (Option ValueType) :=
  visible top (declarationsAfter text) n

def typeFor (n : Name) : Content → Option ValueType
  | .declare type m => if m.same n then some type else none
  | _ => none

/-- The type on the last line that declares a name, in whatever block. -/
def latest (text : List Content) (n : Name) : Option ValueType := text.reverse.findSome? (typeFor n)

/-- The last line that declares a name is followed by the given ones. -/
def LastDeclares (text : List Content) (n : Name) (type : ValueType) (rest : List Content) : Prop :=
  ∃ before c, text = before ++ c :: rest ∧ c.typeFor n = some type ∧ ∀ d ∈ rest, d.typeFor n = none

def closesBlock : Content → Bool
  | .close _ => true
  | _ => false

/-- No line closes a block that was open before the first of them. -/
def StaysInside (lines : List Content) : Prop :=
  ∀ k, (lines.take k).countP closesBlock ≤ (lines.take k).countP opensBlock

/-- What a line does to the number of blocks that were opened and not closed, and to the number of
blocks from before that were closed. -/
def level : Content → Nat × Nat → Nat × Nat
  | .openBranch .., (opened, closed) => (opened + 1, closed)
  | .openFunction .., (opened, closed) => (opened + 1, closed)
  | .close _, (0, closed) => (0, closed + 1)
  | .close _, (opened + 1, closed) => (opened, closed)
  | _, levels => levels

/-- The number of blocks that some lines open and leave open, and of those from before that they
close. -/
def levels (lines : List Content) : Nat × Nat := lines.foldl (fun levels c => c.level levels) (0, 0)

@[simp] theorem declarationsAfter_append (text : List Content) (c : Content) :
    declarationsAfter (text ++ [c]) = c.declarations (declarationsAfter text) := by
  simp [declarationsAfter]

/-- Without their types, the declarations are the scopes. -/
theorem names_declarationsAfter (text : List Content) :
    (declarationsAfter text).map (·.map (·.1)) = scopesAfter text := by
  induction text using List.reverseRecOn with
  | nil => rfl
  | append_singleton text c ih =>
    rw [declarationsAfter_append, scopesAfter_append, ← ih]
    cases c with
    | declare type n => cases declarationsAfter text <;> simp [declarations, scope]
    | openFunction name params => simp [declarations, scope, Function.comp_def]
    | close kind => cases declarationsAfter text <;> simp [declarations, scope]
    | _ => simp [declarations, scope]

theorem latest_append (text : List Content) (c : Content) (n : Name) :
    latest (text ++ [c]) n = (c.typeFor n).or (latest text n) := by
  rw [latest, List.reverse_append, List.reverse_singleton, List.singleton_append,
    List.findSome?_cons]
  cases c.typeFor n <;> rfl

theorem typeFor_of_not_isDeclaration {c : Content} (h : c.isDeclaration = false) (n : Name) :
    c.typeFor n = none := by
  cases c with
  | declare => cases h
  | _ => rfl

theorem latest_append_plain {text more : List Content} (hmore : ∀ c ∈ more, c.isDeclaration = false)
    (n : Name) : latest (text ++ more) n = latest text n := by
  induction more using List.reverseRecOn with
  | nil => rw [List.append_nil]
  | append_singleton more c ih =>
    have hc := typeFor_of_not_isDeclaration (hmore c (by simp)) n
    rw [← List.append_assoc, latest_append, hc, Option.none_or]
    exact ih fun d hd => hmore d (List.mem_append_left _ hd)

theorem latest_eq_some {text : List Content} {n : Name} {type : ValueType} :
    latest text n = some type ↔ ∃ rest, LastDeclares text n type rest := by
  rw [latest, List.findSome?_eq_some_iff]
  constructor
  · rintro ⟨after, c, before, htext, hc, hafter⟩
    refine ⟨after.reverse, before.reverse, c, ?_, hc, fun d hd => hafter d (List.mem_reverse.mp hd)⟩
    rw [← List.reverse_reverse text, htext]
    simp
  · rintro ⟨rest, before, c, rfl, hc, hrest⟩
    exact ⟨rest.reverse, c, before.reverse, by simp, hc,
      fun d hd => hrest d (List.mem_reverse.mp hd)⟩

theorem typeFor_eq_some {c : Content} {n : Name} {type : ValueType} (h : c.typeFor n = some type) :
    ∃ m, c = .declare type m ∧ m.same n := by
  cases c with
  | declare t m =>
    cases hsame : m.same n with
    | true =>
      simp only [typeFor, hsame, if_true, Option.some.injEq] at h
      exact ⟨m, by rw [h], hsame⟩
    | false => simp [typeFor, hsame] at h
  | _ => cases h

/-- A declared type in an open block stands on a line. -/
theorem mem_of_mem_declarationsAfter {text : List Content} {m : Name} {type : ValueType}
    (h : (m, some type) ∈ (declarationsAfter text).flatten) : .declare type m ∈ text := by
  induction text using List.reverseRecOn with
  | nil => simp [declarationsAfter] at h
  | append_singleton text c ih =>
    rw [declarationsAfter_append] at h
    rw [List.mem_append, List.mem_singleton]
    cases c with
    | declare type' n =>
      cases hscopes : declarationsAfter text with
      | nil => simp [hscopes, declarations] at h
      | cons inner outer =>
        simp only [hscopes, declarations, List.modifyHead_cons, List.flatten_cons, List.mem_append,
          List.mem_singleton, Prod.mk.injEq, Option.some.injEq] at h
        rcases h with (h | ⟨rfl, rfl⟩) | h
        · exact .inl (ih (by simp [hscopes, h]))
        · exact .inr rfl
        · exact .inl (ih (by rw [hscopes]; exact List.mem_append_right _ h))
    | openFunction name params =>
      simp only [declarations, List.flatten_cons, List.mem_append, List.mem_map, Prod.mk.injEq,
        reduceCtorEq, and_false, exists_false, false_or] at h
      exact .inl (ih h)
    | close kind =>
      obtain ⟨scope, hscope, h⟩ := List.mem_flatten.mp h
      exact .inl (ih (List.mem_flatten.mpr ⟨scope, List.mem_of_mem_tail hscope, h⟩))
    | openBranch => exact .inl (ih (by simpa [declarations] using h))
    | _ => exact .inl (ih h)

/-- A name that no line declares, and that is no parameter, has the declaration at the top. -/
theorem inForce_of_latest_none {top : List (Name × ValueType)} {text : List Content} {n : Name}
    (h : latest text n = none) (hparam : inForce top text n ≠ some none) :
    inForce top text n = (n.typeIn? top).map some := by
  unfold inForce visible at hparam ⊢
  rw [List.find?_append] at hparam ⊢
  cases hfind : (declarationsAfter text).flatten.find? (·.1.same n) with
  | none => simp [Name.typeIn?, List.find?_map, Function.comp_def]
  | some d =>
    obtain ⟨m, written⟩ := d
    cases written with
    | none => simp [hfind] at hparam
    | some type =>
      have hline := mem_of_mem_declarationsAfter (List.mem_of_find?_eq_some hfind)
      have hsame : m.same n := by simpa using List.find?_some hfind
      have hnone := List.findSome?_eq_none_iff.mp h _ (List.mem_reverse.mpr hline)
      simp [typeFor, hsame] at hnone

theorem levels_append (lines : List Content) (c : Content) :
    levels (lines ++ [c]) = c.level (levels lines) := by
  simp [levels]

/-- All blocks that are opened are closed or left open. -/
theorem levels_balance (lines : List Content) :
    (levels lines).1 + lines.countP closesBlock = lines.countP opensBlock + (levels lines).2 := by
  induction lines using List.reverseRecOn with
  | nil => rfl
  | append_singleton lines c ih =>
    rw [levels_append, List.countP_append, List.countP_append, List.countP_singleton,
      List.countP_singleton]
    cases c with
    | openBranch | openFunction =>
      simp only [level, closesBlock, opensBlock]
      grind
    | close kind =>
      cases hlevels : levels lines with
      | mk opened closed =>
        rw [hlevels] at ih
        cases opened <;> simp only [level, closesBlock, opensBlock] <;> grind
    | _ => simpa [level, closesBlock, opensBlock] using ih

theorem StaysInside.append_iff {lines : List Content} {c : Content} :
    StaysInside (lines ++ [c]) ↔ StaysInside lines ∧
      (lines ++ [c]).countP closesBlock ≤ (lines ++ [c]).countP opensBlock := by
  constructor
  · intro h
    refine ⟨fun k => ?_, ?_⟩
    · have hprefix := h (min k lines.length)
      rwa [List.take_append_of_le_length (min_le_right _ _), List.take_eq_take_min.symm] at hprefix
    · have hall := h (lines ++ [c]).length
      rwa [List.take_length] at hall
  · rintro ⟨h, hall⟩ k
    rcases Nat.lt_or_ge lines.length k with hk | hk
    · rwa [List.take_of_length_le (by simpa using hk)]
    · rw [List.take_append_of_le_length hk]
      exact h k

/-- Lines stay inside if they close no block from before. -/
theorem staysInside_iff {lines : List Content} : StaysInside lines ↔ (levels lines).2 = 0 := by
  induction lines using List.reverseRecOn with
  | nil => simp [StaysInside, levels]
  | append_singleton lines c ih =>
    have hbalance := levels_balance (lines ++ [c])
    have hlast : (levels (lines ++ [c])).2 = (levels lines).2 ∨
        (levels (lines ++ [c])).1 = 0 ∧ (levels (lines ++ [c])).2 = (levels lines).2 + 1 := by
      rw [levels_append]
      cases c with
      | close kind => rcases levels lines with ⟨_ | opened, closed⟩ <;> simp [level]
      | _ => exact .inl rfl
    rw [StaysInside.append_iff, ih]
    omega

/-- Blocks that go on from others: with so many new ones inside of them, in which a name is declared
as a parameter at most, and with more declarations in the old innermost one, none of them of the
name. -/
def Extends (n : Name) (outer : List (List Declaration)) (opened : Nat)
    (blocks : List (List Declaration)) : Prop :=
  ∃ inner more, blocks = inner ++ outer.modifyHead (· ++ more) ∧ inner.length = opened ∧
    (∀ d ∈ inner.flatten, d.1.same n → d.2 = none) ∧ ∀ d ∈ more, d.1.same n = false

namespace Extends
variable {n : Name} {outer blocks : List (List Declaration)} {opened closed : Nat}

theorem refl (outer : List (List Declaration)) : Extends n outer 0 outer :=
  ⟨[], [], by cases outer <;> simp, rfl, by simp, by simp⟩

theorem declare {m : Name} {type : ValueType} (h : Extends n outer opened blocks)
    (hm : m.same n = false) :
    Extends n outer opened (blocks.modifyHead (· ++ [(m, some type)])) := by
  obtain ⟨inner, more, rfl, hlength, hinner, hmore⟩ := h
  cases inner with
  | nil =>
    refine ⟨[], more ++ [(m, some type)], by cases outer <;> simp, hlength, by simp, ?_⟩
    simpa [hm, or_imp, forall_and] using hmore
  | cons first inner =>
    refine ⟨(first ++ [(m, some type)]) :: inner, more, by simp, hlength, ?_, hmore⟩
    intro d hd hsame
    simp only [List.flatten_cons, List.mem_append, List.mem_singleton] at hd hinner
    rcases hd with (hd | rfl) | hd
    · exact hinner d (.inl hd) hsame
    · rw [hm] at hsame
      cases hsame
    · exact hinner d (.inr hd) hsame

theorem cons {scope : List Declaration} (h : Extends n outer opened blocks)
    (hscope : ∀ d ∈ scope, d.2 = none) : Extends n outer (opened + 1) (scope :: blocks) := by
  obtain ⟨inner, more, rfl, hlength, hinner, hmore⟩ := h
  refine ⟨scope :: inner, more, rfl, congrArg (· + 1) hlength, fun d hd hsame => ?_, hmore⟩
  rw [List.flatten_cons, List.mem_append] at hd
  exact hd.elim (hscope d) fun hd => hinner d hd hsame

theorem tail (h : Extends n outer (opened + 1) blocks) : Extends n outer opened blocks.tail := by
  obtain ⟨inner, more, rfl, hlength, hinner, hmore⟩ := h
  cases inner with
  | nil => cases hlength
  | cons first inner =>
    refine ⟨inner, more, rfl, Nat.succ.inj hlength, fun d hd => hinner d ?_, hmore⟩
    rw [List.flatten_cons]
    exact List.mem_append_right _ hd

theorem tail_outer (h : Extends n outer 0 blocks) : Extends n outer.tail 0 blocks.tail := by
  obtain ⟨inner, more, rfl, hlength, -⟩ := h
  obtain rfl := List.eq_nil_of_length_eq_zero hlength
  cases outer with
  | nil => exact refl []
  | cons scope outer => exact refl outer

/-- What a line does to the levels, it does to the blocks. -/
theorem step {c : Content} (h : Extends n (outer.drop closed) opened blocks)
    (hc : c.typeFor n = none) :
    Extends n (outer.drop (c.level (opened, closed)).2) (c.level (opened, closed)).1
      (c.declarations blocks) := by
  cases c with
  | declare type m => exact h.declare (by simpa [typeFor] using hc)
  | openBranch => exact h.cons (by simp)
  | openFunction => exact h.cons (by simp)
  | close =>
    cases opened with
    | zero =>
      rw [level, ← List.tail_drop]
      exact h.tail_outer
    | succ opened => exact h.tail
  | _ => exact h

/-- Only a parameter of a new block can hide what the old blocks declare. -/
theorem visible_eq {top : List (Name × ValueType)} (h : Extends n outer opened blocks)
    (hparam : visible top blocks n ≠ some none) : visible top blocks n = visible top outer n := by
  obtain ⟨inner, more, rfl, -, hinner, hmore⟩ := h
  unfold visible at hparam ⊢
  rw [List.flatten_append, List.append_assoc, List.find?_append] at hparam ⊢
  cases hfind : inner.flatten.find? (·.1.same n) with
  | some d =>
    have hnone := hinner d (List.mem_of_find?_eq_some hfind) (by simpa using List.find?_some hfind)
    simp [hfind, hnone] at hparam
  | none =>
    have hnew : more.find? (·.1.same n) = none :=
      List.find?_eq_none.mpr fun d hd => by simp [hmore d hd]
    rw [Option.none_or]
    cases outer with
    | nil => rfl
    | cons scope outer => simp [hnew]

end Extends

/-- After more lines, none of which declares a name, the blocks go on from those that were not
closed. -/
theorem extends_declarationsAfter {text rest : List Content} {n : Name}
    (hrest : ∀ d ∈ rest, d.typeFor n = none) :
    Extends n ((declarationsAfter text).drop (levels rest).2) (levels rest).1
      (declarationsAfter (text ++ rest)) := by
  induction rest using List.reverseRecOn with
  | nil =>
    rw [List.append_nil]
    exact Extends.refl (declarationsAfter text)
  | append_singleton rest c ih =>
    rw [← List.append_assoc, declarationsAfter_append, levels_append]
    exact (ih fun d hd => hrest d (List.mem_append_left _ hd)).step (hrest c (by simp))

/-- More lines that do not declare a name leave what of its declarations is not closed, unless a
parameter hides it. -/
theorem inForce_extend {top : List (Name × ValueType)} {text rest : List Content} {n : Name}
    (hrest : ∀ d ∈ rest, d.typeFor n = none) (hparam : inForce top (text ++ rest) n ≠ some none) :
    inForce top (text ++ rest) n =
      visible top ((declarationsAfter text).drop (levels rest).2) n :=
  (extends_declarationsAfter hrest).visible_eq hparam

variable {top : List (Name × ValueType)} {before rest : List Content} {n m : Name}
  {type : ValueType}

/-- A declaration whose block is open is in force, unless a parameter hides it. -/
theorem inForce_of_staysInside {scope : List Declaration} {outer : List (List Declaration)}
    (hm : m.same n) (hbefore : declarationsAfter before = scope :: outer)
    (hnew : ∀ d ∈ scope, d.1.same n = false) (hrest : ∀ d ∈ rest, d.typeFor n = none)
    (hinside : StaysInside rest)
    (hparam : inForce top (before ++ .declare type m :: rest) n ≠ some none) :
    inForce top (before ++ .declare type m :: rest) n = some (some type) := by
  have hline : before ++ .declare type m :: rest = (before ++ [.declare type m]) ++ rest := by simp
  rw [hline] at hparam ⊢
  have hscope : scope.find? (·.1.same n) = none :=
    List.find?_eq_none.mpr fun d hd => by simp [hnew d hd]
  rw [inForce_extend hrest hparam, staysInside_iff.mp hinside, List.drop_zero,
    declarationsAfter_append, hbefore]
  simp [visible, declarations, hscope, hm]

/-- With its block closed, a declaration gives way to what is visible in the blocks around it. -/
theorem inForce_of_closed (hrest : ∀ d ∈ rest, d.typeFor n = none) (hclosed : ¬ StaysInside rest)
    (hparam : inForce top (before ++ .declare type m :: rest) n ≠ some none) :
    inForce top (before ++ .declare type m :: rest) n =
      visible top ((declarationsAfter before).drop (levels rest).2) n := by
  have hline : before ++ .declare type m :: rest = (before ++ [.declare type m]) ++ rest := by simp
  rw [hline] at hparam ⊢
  rw [inForce_extend hrest hparam, declarationsAfter_append]
  obtain ⟨k, hk⟩ := Nat.exists_eq_succ_of_ne_zero (staysInside_iff.not.mp hclosed)
  rw [hk]
  cases declarationsAfter before <;> simp [declarations]

end Content
end Sil
