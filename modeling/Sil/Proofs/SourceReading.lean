import Mathlib
import Sil.Proofs.SourceTokens

/-!
What a parser does to a source that is well placed in front of it. A parser reads if it goes on to
another place of the same source and every token in its result spans a text that such a token can
have. Names and numbers are on one line; a string may go on to the next.
-/
set_option mvcgen.warning false

namespace Sil.SourceText
open Std.Do

/-- The kinds of nodes whose texts become names and literals. -/
def tokenKinds : List String := ["identifier", "undefined", "number", "string"]

@[simp] theorem mem_tokenKinds {kind : String} : kind ∈ tokenKinds ↔
    kind = "identifier" ∨ kind = "undefined" ∨ kind = "number" ∨ kind = "string" := by
  simp [tokenKinds]

def TokenText (kind : String) (text : List Char) : Prop :=
  if kind = "string" then text ≠ [] ∧ FeedsContinue text else '\n' ∉ text

/-- Every token of a tree spans a text that it can have. -/
inductive Sound (source : ByteArray) : ConcreteTree → Prop
  | node {kind : String} {extent : Extent} {named : Bool} {field : Option String}
      {standing : Standing}
      {children : List ConcreteTree}
      (own : kind ∈ tokenKinds → ∃ text, Spans source extent text ∧ TokenText kind text)
      (below : ∀ t ∈ children, Sound source t) :
      Sound source (.node kind extent named field standing children)

variable {source : ByteArray}

@[simp] theorem sound_tree {kind : String} {start stop : Cursor} {children : List ConcreteTree}
    (h : kind ∉ tokenKinds) :
    Sound source (tree kind start stop children) ↔ ∀ t ∈ children, Sound source t := by
  constructor
  · rintro ⟨-, below⟩
    exact below
  · exact fun below => .node (fun hkind => absurd hkind h) below

theorem sound_mark {kind : String} {start stop : Cursor} (h : kind ∉ tokenKinds) :
    Sound source (mark kind start stop) := .node (fun hkind => absurd hkind h) (by simp)

@[simp] theorem sound_inField {t : ConcreteTree} {name : String} :
    Sound source (t.inField name) ↔ Sound source t := by
  cases t
  constructor
  · rintro ⟨own, below⟩
    exact ⟨own, below⟩
  · rintro ⟨own, below⟩
    exact ⟨own, below⟩

theorem sound_asPattern {t : ConcreteTree} (h : Sound source t) : Sound source (asPattern t) := by
  cases t
  obtain ⟨own, below⟩ := h
  refine ⟨fun hkind => ?_, below⟩
  split at hkind
  · simp at hkind
  split at hkind
  · simp at hkind
  · rename_i harray hobject
    rw [if_neg harray, if_neg hobject]
    exact own hkind

/-- What is known of a result that was read: the trees in it are sound. -/
class Traced (α : Type) where
  Sound : ByteArray → α → Prop

/-- Nothing is said of a result without trees. -/
instance (priority := low) Traced.plain {α : Type} : Traced α := ⟨fun _ _ => True⟩

instance : Traced ConcreteTree := ⟨Sound⟩

instance : Traced Term := ⟨fun source t => Sound source t.tree⟩

instance : Traced Group := ⟨fun source group => ∀ item ∈ group.items, Sound source item.2.tree⟩

instance {α : Type} [Traced α] : Traced (List α) :=
  ⟨fun source as => ∀ a ∈ as, Traced.Sound source a⟩

instance {α : Type} [Traced α] : Traced (Option α) :=
  ⟨fun source o => ∀ a ∈ o, Traced.Sound source a⟩

instance {α β : Type} [Traced α] [Traced β] : Traced (α × β) :=
  ⟨fun source p => Traced.Sound source p.1 ∧ Traced.Sound source p.2⟩

namespace Traced

variable {α β : Type} [Traced α] [Traced β]

omit [Traced α] in
@[simp] theorem sound_plain (a : α) : @Traced.Sound α plain source a := trivial

@[simp] theorem sound_tree (t : ConcreteTree) : Traced.Sound source t ↔ SourceText.Sound source t :=
  Iff.rfl

@[simp] theorem sound_term (t : Term) : Traced.Sound source t ↔ SourceText.Sound source t.tree :=
  Iff.rfl

@[simp] theorem sound_group (group : Group) :
    Traced.Sound source group ↔ ∀ item ∈ group.items, SourceText.Sound source item.2.tree := Iff.rfl

@[simp] theorem sound_list (as : List α) :
    Traced.Sound source as ↔ ∀ a ∈ as, Traced.Sound source a := Iff.rfl

@[simp] theorem sound_option (o : Option α) :
    Traced.Sound source o ↔ ∀ a ∈ o, Traced.Sound source a := Iff.rfl

@[simp] theorem sound_prod (p : α × β) :
    Traced.Sound source p ↔ Traced.Sound source p.1 ∧ Traced.Sound source p.2 := Iff.rfl

end Traced

/-- A parser that goes on to a place of the source, and whose result is sound. -/
abbrev Reads (source : ByteArray) {α : Type} [Traced α] (p : Scan α) : Prop :=
  ⦃fun c => ⌜Place source c⌝⦄ p ⦃⇓? a c => ⌜Place source c ∧ Traced.Sound source a⌝⦄

/-- A triple is about the cases in which a parser succeeds. -/
theorem triple_iff {α : Type} {p : Scan α} {P : Cursor → Prop} {Q : α → Cursor → Prop} :
    ⦃fun c => ⌜P c⌝⦄ p ⦃⇓? a c => ⌜Q a c⌝⦄ ↔ ∀ c a c', P c → p c = some (a, c') → Q a c' := by
  have hwp (c : Cursor) :
      (wp⟦p⟧ (⇓? a c => ⌜Q a c⌝) c).down ↔ ∀ a c', p c = some (a, c') → Q a c' := by
    show ((wp (p c)).apply (fun r => ⌜Q r.1 r.2⌝, (fun _ => ⌜True⌝, ⟨⟩))).down ↔ _
    cases p c with
    | none => exact iff_of_true trivial (by simp)
    | some r =>
      show Q r.1 r.2 ↔ _
      simp [Prod.ext_iff]
  constructor
  · intro h c a c' hc
    exact (hwp c).mp (h c hc) a c'
  · intro h c hc
    exact (hwp c).mpr fun a c' => h c a c' hc

@[simp] theorem Cursor.advance_add (c : Cursor) (m n : Nat) :
    (c.advance m).advance n = c.advance (m + n) := by
  induction m generalizing c with
  | zero => rw [Nat.zero_add, Cursor.advance]
  | succ m ih =>
    rw [Nat.add_right_comm]
    exact ih c.next

def Cursor.nextWord (c : Cursor) : String :=
  String.ofList (c.skipTrivia.rest.take (nameLength c.skipTrivia.rest))

@[simp] theorem Place.skipTrivia {c : Cursor} (h : Place source c) :
    Place source c.skipTrivia := h.advance _

attribute [simp] Place.advance

namespace Scan

section Primitives

variable {α : Type} {P : Cursor → Prop} {Q : α → Cursor → Prop}

@[spec] theorem fail_spec : ⦃fun c => ⌜P c⌝⦄ (fail : Scan α) ⦃⇓? a c => ⌜Q a c⌝⦄ := by
  refine triple_iff.mpr fun c a c' hc h => ?_
  cases h

attribute [spec] require

-- These say which place a step leads to, so that the two ends of a token are known.
@[spec] theorem skip_spec {Q : PostCond Cursor (.arg Cursor (.except PUnit .pure))} :
    ⦃fun c => Q.1 c.skipTrivia c.skipTrivia⦄ skip ⦃Q⦄ := by
  mvcgen [skip]

@[spec] theorem take_spec (n : Nat) {Q : PostCond Unit (.arg Cursor (.except PUnit .pure))} :
    ⦃fun c => Q.1 () (c.advance n)⦄ take n ⦃Q⦄ := by
  mvcgen [take]

@[spec] theorem nextMark_spec {Q : PostCond String (.arg Cursor (.except PUnit .pure))} :
    ⦃fun c => Q.1 (punctuatorAt c.skipTrivia) c⦄ nextMark ⦃Q⦄ := by
  mvcgen [nextMark]

@[spec] theorem nextWord_spec {Q : PostCond String (.arg Cursor (.except PUnit .pure))} :
    ⦃fun c => Q.1 c.nextWord c⦄ nextWord ⦃Q⦄ := by
  mvcgen [nextWord]

@[spec] theorem look_spec (p : Scan α) :
    ⦃fun c => ⌜Place source c⌝⦄ look p ⦃⇓? _ c => ⌜Place source c⌝⦄ := by
  refine triple_iff.mpr fun c a c' hc h => ?_
  obtain ⟨r, -, hr⟩ := Option.map_eq_some_iff.mp h
  cases hr
  exact hc

@[spec] theorem reads_attempt [Traced α] {p : Scan α} (hp : Reads source p) :
    Reads source (attempt p) := by
  refine triple_iff.mpr fun c a c' hc h => ?_
  unfold attempt at h
  split at h
  · rename_i b next hb
    cases h
    simpa using triple_iff.mp hp c b _ hc hb
  · cases h
    simpa using hc

/-- What every step of a repetition keeps. -/
theorem iterate_spec {I : α → Cursor → Prop} {step : α → Scan (Option α)}
    (hstep : ∀ a, ⦃fun c => ⌜I a c⌝⦄ step a ⦃⇓? o c => ⌜I (o.getD a) c⌝⦄) (fuel : Nat) (a : α) :
    ⦃fun c => ⌜I a c⌝⦄ iterate step fuel a ⦃⇓? b c => ⌜I b c⌝⦄ := by
  induction fuel generalizing a with
  | zero => mvcgen [iterate]
  | succ fuel ih =>
    have h := hstep a
    mvcgen [iterate, h, ih]

end Primitives

/-- Punctuation is no token. -/
theorem punctuatorAt_not_mem (c : Cursor) : punctuatorAt c ∉ tokenKinds := by
  unfold punctuatorAt
  split
  · split <;> decide
  · cases h : punctuators.find? c.startsWith with
    | none => decide
    | some s =>
      have hall : ∀ s ∈ punctuators, s ∉ tokenKinds := by decide
      exact hall s (List.mem_of_find?_eq_some h)

@[spec] theorem reads_punct (s : String) : Reads source (punct s) := by
  mvcgen [punct]
  rename_i c hc hmark
  have hkind := punctuatorAt_not_mem c.skipTrivia
  rw [beq_iff_eq.mp hmark] at hkind
  exact ⟨by simp [hc], sound_mark hkind⟩

@[spec] theorem reads_punct? (s : String) : Reads source (punct? s) := by
  mvcgen [punct?]
  all_goals simp_all

/-- A token on one line. -/
theorem sound_token {kind : String} {c : Cursor} {n : Nat} {named : Bool} (hc : Place source c)
    (hline : OnOneLine n c.rest) (hkind : kind = "string" → c.rest.take n ≠ []) :
    Sound source (.node kind (c.extentTo (c.advance n)) named none {} []) := by
  refine .node (fun _ => ⟨_, hc.spans n, ?_⟩) (by simp)
  unfold TokenText
  split
  · rename_i h
    exact ⟨hkind h, feedsContinue_of_onOneLine hline⟩
  · exact hline

theorem take_nextWord (c : Cursor) :
    c.skipTrivia.rest.take c.nextWord.length = c.nextWord.toList := by
  rw [Cursor.nextWord, String.length_ofList, List.length_take, ← List.take_eq_take_min,
    String.toList_ofList]

theorem onOneLine_nextWord (c : Cursor) : OnOneLine c.nextWord.length c.skipTrivia.rest := by
  have hline := onOneLine_nameLength c.skipTrivia.rest
  rwa [OnOneLine, take_nextWord, Cursor.nextWord, String.toList_ofList]

@[spec] theorem reads_word (s : String) : Reads source (word s) := by
  mvcgen [word]
  rename_i c hc hword
  rw [← beq_iff_eq.mp hword]
  refine ⟨by simp [hc], sound_token hc.skipTrivia (onOneLine_nextWord c) fun hkind => ?_⟩
  rw [take_nextWord, hkind]
  decide

@[spec] theorem reads_word? (s : String) : Reads source (word? s) := by
  mvcgen [word?]
  all_goals simp_all

@[spec] theorem reads_anyWord : Reads source anyWord := by
  mvcgen [anyWord]
  all_goals simp_all

@[spec] theorem afterWord_spec {α : Type} (p : Scan α) :
    ⦃fun c => ⌜Place source c⌝⦄ afterWord p ⦃⇓? _ c => ⌜Place source c⌝⦄ := by
  mvcgen [afterWord]

@[spec] theorem reads_identifier : Reads source identifier := by
  mvcgen [identifier]
  rename_i c hc hname
  exact ⟨by simp [hc], sound_token hc.skipTrivia (onOneLine_nextWord c) (by simp)⟩

@[spec] theorem reads_number : Reads source number := by
  mvcgen [number]
  rename_i c hc n hn
  exact ⟨by simp [hc], sound_token hc.skipTrivia (onOneLine_numberLength _) (by simp)⟩

/-- Between two places stands a text that has line feeds only to continue a line. -/
def Continues (start c : Cursor) : Prop :=
  ∃ n, c = start.advance n ∧ start.rest.take n ≠ [] ∧ FeedsContinue (start.rest.take n)

theorem Continues.advance {start c : Cursor} {n : Nat} (h : Continues start c)
    (hn : FeedsContinue (c.rest.take n)) : Continues start (c.advance n) := by
  obtain ⟨m, rfl, hsome, hm⟩ := h
  rw [Cursor.rest_advance] at hn
  refine ⟨m + n, Cursor.advance_add _ _ _, ?_, ?_⟩
  · rw [List.take_add]
    exact List.append_ne_nil_of_left_ne_nil hsome _
  · rw [List.take_add]
    exact hm.append hn

theorem Continues.one {start : Cursor} {c : Char} {rest : List Char} (h : start.rest = c :: rest)
    (hc : c ≠ '\n') : Continues start (start.advance 1) := by
  refine ⟨1, rfl, by simp [h], feedsContinue_of_onOneLine (onOneLine_head ?_ hc)⟩
  rw [h, List.head?_cons]

theorem sound_string {start c : Cursor} {parts : List ConcreteTree} (hstart : Place source start)
    (h : Continues start c) (hparts : ∀ t ∈ parts, Sound source t) :
    Place source c ∧ Sound source (tree "string" start c parts) := by
  obtain ⟨n, rfl, hn⟩ := h
  exact ⟨hstart.advance n, .node (fun _ => ⟨_, hstart.spans n, by simpa [TokenText] using hn⟩)
    hparts⟩

theorem stringPart_spec (quote : Char) (start : Cursor) :
    ⦃fun c => ⌜Continues start c⌝⦄ stringPart quote
    ⦃⇓? t c => ⌜Continues start c ∧ Sound source t⌝⦄ := by
  mvcgen [stringPart]
  case vc1.h_1.h_1 hc _ _ _ hescape =>
    exact ⟨hc.advance (feedsContinue_escape hescape), by simp⟩
  case vc2.h_2.isTrue hc _ _ hrest _ _ =>
    subst hrest
    exact ⟨hc.advance (feedsContinue_of_onOneLine (.takeWhile (by simp))), by simp⟩

theorem ne_feed_of_quote {quote : Char} (h : (quote == '"' || quote == '\x27') = true) :
    quote ≠ '\n' := by
  rintro rfl
  cases h

/-- Between its quotes, a string has parts of which each is an escape or has no line feed. -/
@[spec] theorem reads_string : Reads source string := by
  refine triple_iff.mpr fun c t c' hc h => ?_
  -- The loop has to know where the string begins, so the invariant is about that place.
  have hloop := @iterate_spec _ fun (parts : List ConcreteTree) s =>
    Continues c.skipTrivia s ∧ ∀ t ∈ parts, Sound source t
  have hpart (quote : Char) := @stringPart_spec source quote c.skipTrivia
  have hstring : ⦃fun s => ⌜s = c⌝⦄ string ⦃⇓? t s => ⌜Place source s ∧ Sound source t⌝⦄ := by
    mvcgen [string, hloop, hpart]
    case vc2.hstep.isFalse.pre h _ => exact h.1
    case vc3.hstep.isFalse.post.success hparts _ _ _ h =>
      refine ⟨h.1, fun t ht => ?_⟩
      rcases List.mem_append.mp ht with ht | ht
      · exact hparts.2 t ht
      · rw [List.mem_singleton.mp ht]
        exact h.2
    case vc4.h_1.isTrue.pre hs _ _ hrest hquote =>
      subst hs
      exact ⟨.one hrest (ne_feed_of_quote hquote), by simp⟩
    case vc5.h_1.isTrue.post.success.isTrue hs _ _ _ hquote _ _ h hend =>
      subst hs
      refine sound_string hc.skipTrivia (h.1.advance ?_) h.2
      exact feedsContinue_of_onOneLine
        (onOneLine_head (beq_iff_eq.mp hend) (ne_feed_of_quote hquote))
  exact triple_iff.mp hstring c t c' rfl h

@[spec] theorem reads_iterate {α : Type} [Traced α] {step : α → Scan (Option α)} {a : α}
    (ha : Traced.Sound source a) (hstep : ∀ a, Traced.Sound source a → Reads source (step a))
    (fuel : Nat) : Reads source (iterate step fuel a) := by
  have hkeeps (a : α) : ⦃fun c => ⌜Place source c ∧ Traced.Sound source a⌝⦄ step a
      ⦃⇓? o c => ⌜Place source c ∧ Traced.Sound source (o.getD a)⌝⦄ := by
    refine triple_iff.mpr fun c o c' hc h => ?_
    obtain ⟨hplace, hsound⟩ := triple_iff.mp (hstep a hc.2) c o c' hc.1 h
    cases o with
    | none => exact ⟨hplace, hc.2⟩
    | some b => exact ⟨hplace, hsound b rfl⟩
  refine triple_iff.mpr fun c b c' hc h => ?_
  exact triple_iff.mp (iterate_spec hkeeps fuel a) c b c' ⟨hc, ha⟩ h

@[spec] theorem reads_lineEndAhead : Reads source lineEndAhead := by
  mvcgen [lineEndAhead]

@[spec] theorem reads_endsHere (afterValue : Bool) : Reads source (endsHere afterValue) := by
  mvcgen [endsHere]

@[simp] theorem place_skipSpace {c : Cursor} (h : Place source c) :
    Place source c.skipSpace := h.advance _

@[spec] theorem reads_comment? : Reads source comment? := by
  mvcgen [comment?]
  all_goals simp_all +zetaDelta

@[spec] theorem reads_semicolon (afterValue : Bool) : Reads source (semicolon afterValue) := by
  mvcgen [semicolon]
  all_goals simp_all

end Scan

end Sil.SourceText
