import Mathlib
import Sil.Proofs.SourceReading
import Sil.Proofs.StringLiterals

/-!
Strings and numbers are read as they are written. A string literal is read up to its closing quote,
and the parts of its node hold the items of the literal: one escape sequence each, or the characters
up to the next one. Digits alone are read up to their end.
-/
namespace Sil

theorem EscapeForm.chars_eq_cons (e : EscapeForm) : ∃ cs, e.chars = '\\' :: cs := by
  cases e <;> exact ⟨_, rfl⟩

namespace StringItem

@[simp]
theorem flatMap_chars_plain (cs : List Char) :
    (cs.map StringItem.plain).flatMap StringItem.chars = cs := by
  induction cs with
  | nil => rfl
  | cons c cs ih => simp_all [StringItem.chars]

theorem length_le_length_chars (items : List StringItem) :
    items.length ≤ (items.flatMap StringItem.chars).length := by
  induction items with
  | nil => exact le_refl 0
  | cons item items ih =>
    have hitem : 0 < item.chars.length := by
      cases item with
      | plain c => exact Nat.one_pos
      | escape e =>
        obtain ⟨cs, hcs⟩ := e.chars_eq_cons
        rw [StringItem.chars, hcs]
        exact Nat.succ_pos _
    rw [List.length_cons, List.flatMap_cons, List.length_append]
    omega

/-- The items up to the first escape sequence. -/
theorem exists_plain_run (items : List StringItem) :
    ∃ (cs : List Char) (rest : List StringItem),
      items = cs.map StringItem.plain ++ rest ∧ ∀ i ∈ rest.head?, ∃ e, i = .escape e := by
  induction items with
  | nil => exact ⟨[], [], rfl, by simp⟩
  | cons item items ih =>
    cases item with
    | plain c =>
      obtain ⟨cs, rest, rfl, hrest⟩ := ih
      exact ⟨c :: cs, rest, rfl, hrest⟩
    | escape e => exact ⟨[], .escape e :: items, rfl, fun i hi => ⟨e, (Option.some.inj hi).symm⟩⟩

theorem admitted_plain_append {quote : Char} {cs : List Char} {rest : List StringItem}
    (h : Admitted quote (cs.map StringItem.plain ++ rest)) :
    (∀ d ∈ cs, d ∉ [quote, '\\', '\n', '\r']) ∧ Admitted quote rest := by
  induction cs with
  | nil => exact ⟨by simp, h⟩
  | cons c cs ih =>
    obtain ⟨hc, hcs⟩ := h
    obtain ⟨hall, hrest⟩ := ih hcs
    exact ⟨List.forall_mem_cons.mpr ⟨hc, hall⟩, hrest⟩

end StringItem

namespace SourceText

section Escapes

open EscapeForm

theorem isSome_digit?_char {base : Nat} (hbase : base ≤ 16) (d : WrittenDigit base) :
    (Numeral.digit? base d.char).isSome = true := by
  rw [Numeral.digit?_char_self hbase, Option.isSome_some]

/-- All digits of a text of digits are counted. -/
theorem length_filter_digits (ds : List (WrittenDigit 16)) (rest : List Char) :
    (((ds.map WrittenDigit.char ++ rest).take ds.length).filter fun c =>
      (Numeral.digit? 16 c).isSome).length = ds.length := by
  have htake : (ds.map WrittenDigit.char ++ rest).take ds.length = ds.map WrittenDigit.char :=
    List.take_left' (by simp)
  rw [htake, List.filter_eq_self.mpr, List.length_map]
  intro c hc
  obtain ⟨d, -, rfl⟩ := List.mem_map.mp hc
  exact isSome_digit?_char (le_refl 16) d

/-- What is taken ends before the first character that is not to be taken. -/
theorem takeWhile_append_stop {p : Char → Bool} {cs after : List Char} (hcs : ∀ c ∈ cs, p c = true)
    (hafter : ∀ c ∈ after.head?, p c = false) : (cs ++ after).takeWhile p = cs := by
  have hend : after.takeWhile p = [] := by
    cases after with
    | nil => rfl
    | cons c after => rw [List.takeWhile_cons_of_neg (by simp [hafter c rfl])]
  rw [List.takeWhile_append_of_pos hcs, hend, List.append_nil]

/-- Digits are taken up to the first character that is none. -/
theorem takeWhile_digits {base : Nat} (hbase : base ≤ 16) (ds : List (WrittenDigit base))
    {rest : List Char} (hrest : ∀ c ∈ rest.head?, Numeral.digit? base c = none) :
    (ds.map WrittenDigit.char ++ rest).takeWhile (fun c => (Numeral.digit? base c).isSome) =
      ds.map WrittenDigit.char := by
  refine takeWhile_append_stop (fun c hc => ?_) fun c hc => by rw [hrest c hc, Option.isSome_none]
  obtain ⟨d, -, rfl⟩ := List.mem_map.mp hc
  exact isSome_digit?_char hbase d

theorem escapeLength?_octal {first : WrittenDigit 8} {more : List (WrittenDigit 8)}
    (short : more.length ≤ 2) {next : Char} (h : (octal first more short).EndsBefore next)
    (rest : List Char) :
    escapeLength? ((octal first more short).chars ++ next :: rest) =
      some (octal first more short).chars.length := by
  have hne {c : Char} (hc : Numeral.digit? 16 c = none) : first.char ≠ c :=
    Numeral.char_ne (by decide) hc first
  have htake : (((first :: more).map WrittenDigit.char ++ next :: rest).take 3).takeWhile
      (fun c => (Numeral.digit? 8 c).isSome) = (first :: more).map WrittenDigit.char := by
    rw [List.take_append, List.take_of_length_le (by simpa using Nat.lt_succ_of_le short)]
    refine takeWhile_digits (by decide) _ fun c hc => ?_
    rcases h with h | h
    · simp [h] at hc
    · rw [List.head?_take] at hc
      split at hc
      · cases hc
      · cases hc
        exact h
  rw [chars, List.cons_append, List.map_cons, List.cons_append, escapeLength?, if_neg (hne rfl),
    if_neg (hne rfl), if_pos (isSome_digit?_char (by decide) first)]
  rw [List.map_cons, List.cons_append] at htake
  rw [htake]
  simp [Nat.add_comm]

theorem digit?_eight_eq_none {c : Char} (h : c ∉ ['0', '1', '2', '3', '4', '5', '6', '7']) :
    Numeral.digit? 8 c = none := by
  have hrange : ¬ (0x30 ≤ c.toNat ∧ c.toNat ≤ 0x37) := by
    rintro ⟨hlow, hhigh⟩
    refine h ?_
    rw [← Char.ofNat_toNat c]
    generalize c.toNat = n at hlow hhigh
    interval_cases n <;> decide
  unfold Numeral.digit?
  grind

theorem escapeLength?_point {first : WrittenDigit 16} {more : List (WrittenDigit 16)}
    (inRange : WrittenDigit.positional (first :: more) < 0x110000) (rest : List Char) :
    escapeLength? ((point first more inRange).chars ++ rest) =
      some (point first more inRange).chars.length := by
  have hchars : (point first more inRange).chars ++ rest = '\\' :: 'u' :: '\x7b' ::
      ((first :: more).map WrittenDigit.char ++ '\x7d' :: rest) := by
    simp [chars]
  have hdigits : ((first :: more).map WrittenDigit.char ++ '\x7d' :: rest).takeWhile
      (fun c => (Numeral.digit? 16 c).isSome) = (first :: more).map WrittenDigit.char :=
    takeWhile_digits (le_refl 16) (first :: more) (by simp; decide)
  have hclosed : (((first :: more).map WrittenDigit.char ++ '\x7d' :: rest).drop
      ((first :: more).map WrittenDigit.char).length).head? = some '\x7d' := by
    rw [List.drop_left]
    rfl
  rw [hchars, escapeLength?, if_neg (by decide), if_pos rfl, nameEscape?, hdigits, hclosed,
    if_neg (by simp)]
  simp [chars]

/-- An escape sequence that ends before the next character is read as a whole. -/
theorem escapeLength?_chars {e : EscapeForm} {next : Char} (h : e.EndsBefore next)
    (rest : List Char) :
    escapeLength? (e.chars ++ next :: rest) = some e.chars.length := by
  cases e with
  | single c isSingle =>
    simp only [IsSingle, List.mem_cons, List.mem_nil_iff, or_false, not_or] at isSingle
    have hoctal : Numeral.digit? 8 c = none := digit?_eight_eq_none (by simp [isSingle])
    simp only [chars, List.cons_append, List.nil_append, escapeLength?, isSingle, if_false, hoctal]
    by_cases hc : c = '?'
    · simp [hc, h hc]
    · simp [hc]
  | octal first more short => exact escapeLength?_octal short h rest
  | byte a b =>
    have hcount := length_filter_digits [a, b] (next :: rest)
    simp only [List.length_cons, List.length_nil, Nat.zero_add, Nat.reduceAdd] at hcount
    rw [chars, List.cons_append, List.cons_append, escapeLength?, if_pos rfl, if_pos hcount]
    rfl
  | unit a b c d =>
    have hcount := length_filter_digits [a, b, c, d] (next :: rest)
    simp only [List.length_cons, List.length_nil, Nat.zero_add, Nat.reduceAdd] at hcount
    have hbrace : a.char ≠ '\x7b' := Numeral.char_ne (le_refl 16) rfl a
    rw [chars, List.cons_append, List.cons_append, escapeLength?, if_neg (by decide), if_pos rfl,
      nameEscape?, if_pos hcount]
    · rfl
    · simp [hbrace]
  | point first more inRange => exact escapeLength?_point inRange (next :: rest)
  | lineBreak b =>
    cases b with
    | returnOnly =>
      simp only [EndsBefore] at h
      simp [chars, LineBreak.chars, escapeLength?, h, show Numeral.digit? 8 '\r' = none from rfl]
    | _ => rfl
  | joined isReturn isParagraph => cases isReturn <;> cases isParagraph <;> rfl

end Escapes

namespace Scan

variable {α β : Type}

/-- A parser in two steps goes on where its first step ends. -/
theorem bind_run {p : Scan α} {f : α → Scan β} {c c' : Cursor} {a : α} (h : p c = some (a, c')) :
    (p >>= f) c = f a c' := by
  show (p c >>= fun r => f r.1 r.2) = _
  rw [h]
  rfl

theorem take_run (n : Nat) (c : Cursor) : take n c = some ((), c.advance n) := rfl

theorem skip_run (c : Cursor) : skip c = some (c.skipTrivia, c.skipTrivia) := rfl

theorem set_run (c c' : Cursor) : (set c' : Scan PUnit) c = some (⟨⟩, c') := rfl

theorem get_run (c : Cursor) : (get : Scan Cursor) c = some (c, c) := rfl

theorem require_run {b : Bool} (h : b = true) (c : Cursor) : require b c = some ((), c) := by
  rw [h]
  rfl

variable {source : ByteArray} {c : Cursor} {quote : Char}

/-- An escape sequence is a part of its own. -/
theorem stringPart_escape {e : EscapeForm} {next : Char} {after : List Char}
    (hrest : c.rest = e.chars ++ next :: after) (he : e.EndsBefore next) :
    stringPart quote c = some (tree "escape_sequence" c (c.advance e.chars.length) [],
      c.advance e.chars.length) := by
  have hlength := escapeLength?_chars he after
  rw [← hrest] at hlength
  obtain ⟨cs, hcs⟩ : ∃ cs, c.rest = '\\' :: cs := by
    obtain ⟨cs, hcs⟩ := e.chars_eq_cons
    exact ⟨cs ++ next :: after, by rw [hrest, hcs, List.cons_append]⟩
  unfold stringPart
  rw [bind_run (get_run c)]
  simp only [hcs] at hlength ⊢
  simp only [hlength]
  rw [bind_run (take_run _ c), bind_run (get_run _)]
  rfl

/-- Characters up to the next escape sequence or the end are one part. -/
theorem stringPart_plain {cs after : List Char} (hrest : c.rest = cs ++ after) (hsome : cs ≠ [])
    (hcs : ∀ d ∈ cs, d ∉ [quote, '\\', '\n', '\r'])
    (hafter : ∀ d ∈ after.head?, d = quote ∨ d = '\\') :
    stringPart quote c =
      some (tree "string_fragment" c (c.advance cs.length) [], c.advance cs.length) := by
  have hplain :
      c.rest.takeWhile (fun d => d != quote && d != '\\' && d != '\n' && d != '\r') = cs := by
    rw [hrest]
    refine takeWhile_append_stop (fun d hd => ?_) fun d hd => ?_
    · simpa [and_assoc] using hcs d hd
    · rcases hafter d hd with rfl | rfl <;> simp
  obtain ⟨d, rest, rfl⟩ := List.exists_cons_of_ne_nil hsome
  have hd : d ≠ '\\' := by
    rintro rfl
    exact hcs '\\' List.mem_cons_self (by simp)
  unfold stringPart
  rw [bind_run (get_run c)]
  rw [hrest] at hplain
  simp only [hrest, List.cons_append, List.cons.injEq, hd, false_and, imp_false, not_false_eq_true,
    implies_true] at hplain ⊢
  rw [hplain, List.isEmpty_cons, Bool.not_false, bind_run (require_run rfl c),
    bind_run (take_run _ c), bind_run (get_run _)]
  rfl

def stringStep (quote : Char) (parts : List ConcreteTree) : Scan (Option (List ConcreteTree)) := do
  if (← get).rest.head? == some quote then return none
  return some (parts ++ [← stringPart quote])

theorem stringStep_end {after : List Char} (hrest : c.rest = quote :: after)
    (parts : List ConcreteTree) :
    stringStep quote parts c = some (none, c) := by
  unfold stringStep
  rw [bind_run (get_run c), hrest, if_pos (by simp)]
  rfl

theorem stringStep_part {part : ConcreteTree} {c' : Cursor} (hrest : c.rest.head? ≠ some quote)
    (hpart : stringPart quote c = some (part, c')) (parts : List ConcreteTree) :
    stringStep quote parts c = some (some (parts ++ [part]), c') := by
  unfold stringStep
  rw [bind_run (get_run c), if_neg (by simpa using hrest), bind_run hpart]
  rfl

theorem iterate_done {α : Type} {step : α → Scan (Option α)} {a : α} {c' : Cursor} (fuel : Nat)
    (h : step a c = some (none, c')) : iterate step (fuel + 1) a c = some (a, c') := by
  unfold iterate
  rw [bind_run h]
  rfl

theorem iterate_more {α : Type} {step : α → Scan (Option α)} {a b : α} {c' : Cursor} (fuel : Nat)
    (h : step a c = some (some b, c')) : iterate step (fuel + 1) a c = iterate step fuel b c' := by
  rw [iterate, bind_run h]

/-- A part of a string stands for the items it was read from. -/
theorem isPart_tree {kind : String} {items : List StringItem} {after : List Char}
    (hc : Place source c) (hrest : c.rest = items.flatMap StringItem.chars ++ after)
    (hkind : if kind = "escape_sequence" then ∃ e, items = [.escape e]
      else ∃ cs : List Char, items = cs.map StringItem.plain) :
    Concrete.IsPart source (tree kind c (c.advance (items.flatMap StringItem.chars).length) [])
      items := by
  have hspans := hc.spans (items.flatMap StringItem.chars).length
  rw [hrest, List.take_left] at hspans
  exact ⟨hspans.text_eq, hkind⟩

/-- The first part of a string that is not at its end, with the items that it holds. -/
theorem exists_part {quote : Char} (hquote : quote ≠ '\\') {items : List StringItem}
    (hitems : items ≠ []) (hadmitted : StringItem.Admitted quote items) {after : List Char}
    (hrest : c.rest = items.flatMap StringItem.chars ++ quote :: after) (hc : Place source c) :
    ∃ kind first rest, items = first ++ rest ∧ first ≠ [] ∧ StringItem.Admitted quote rest ∧
      c.rest.head? ≠ some quote ∧
      stringPart quote c = some (tree kind c (c.advance (first.flatMap StringItem.chars).length) [],
        c.advance (first.flatMap StringItem.chars).length) ∧
      Concrete.IsPart source
        (tree kind c (c.advance (first.flatMap StringItem.chars).length) []) first := by
  obtain ⟨run, rest, rfl, hhead⟩ := StringItem.exists_plain_run items
  obtain ⟨hrun, hadmittedRest⟩ := StringItem.admitted_plain_append hadmitted
  rw [List.flatMap_append, StringItem.flatMap_chars_plain, List.append_assoc] at hrest
  cases run with
  | cons d run =>
    have hafter : ∀ a ∈ (rest.flatMap StringItem.chars ++ quote :: after).head?,
        a = quote ∨ a = '\\' := by
      cases rest with
      | nil => simp
      | cons item rest =>
        obtain ⟨e, rfl⟩ := hhead item rfl
        obtain ⟨cs, hcs⟩ := e.chars_eq_cons
        simp [StringItem.chars, hcs]
    refine ⟨"string_fragment", (d :: run).map .plain, rest, rfl, by simp, hadmittedRest, ?_, ?_, ?_⟩
    · rw [hrest]
      have hd := hrun d List.mem_cons_self
      simp only [List.mem_cons, not_or] at hd
      simpa using hd.1
    · rw [StringItem.flatMap_chars_plain]
      exact stringPart_plain hrest (by simp) hrun hafter
    · rw [← StringItem.flatMap_chars_plain (d :: run)] at hrest
      exact isPart_tree hc hrest ⟨d :: run, rfl⟩
  | nil =>
    obtain - | ⟨item, rest⟩ := rest
    · exact absurd rfl hitems
    obtain ⟨e, rfl⟩ := hhead item rfl
    obtain ⟨cs, hcs⟩ := e.chars_eq_cons
    obtain ⟨next, hnext⟩ : ∃ next, rest.flatMap StringItem.chars ++ quote :: after =
        (rest.flatMap StringItem.chars).headD quote :: next := by
      cases rest.flatMap StringItem.chars <;> exact ⟨_, rfl⟩
    have hchars : c.rest = e.chars ++ (rest.flatMap StringItem.chars ++ quote :: after) := by
      rw [hrest, List.nil_append, List.flatMap_cons, List.append_assoc, StringItem.chars]
    refine ⟨"escape_sequence", [.escape e], rest, rfl, by simp, hadmittedRest.2, ?_, ?_, ?_⟩
    · rw [hchars, hcs]
      simpa using hquote.symm
    · rw [hnext] at hchars
      rw [List.flatMap_singleton]
      exact stringPart_escape hchars hadmittedRest.1
    · have hitem : c.rest = [StringItem.escape e].flatMap StringItem.chars ++
          (rest.flatMap StringItem.chars ++ quote :: after) := by
        rw [List.flatMap_singleton]
        exact hchars
      exact isPart_tree hc hitem ⟨e, rfl⟩

/-- The parts of a string, from any item on. -/
theorem iterate_stringStep {quote : Char} (hquote : quote ≠ '\\') {after : List Char} (n : Nat)
    (items : List StringItem) (hn : items.length = n) (hadmitted : StringItem.Admitted quote items)
    (hc : Place source c) (hrest : c.rest = items.flatMap StringItem.chars ++ quote :: after)
    (fuel : Nat) (hfuel : n < fuel) (parts : List ConcreteTree) :
    ∃ new groups, iterate (stringStep quote) fuel parts c
        = some (parts ++ new, c.advance (items.flatMap StringItem.chars).length) ∧
      groups.flatten = items ∧ List.Forall₂ (Concrete.IsPart source) new groups ∧
      ∀ t ∈ new, t.named = true ∧ t.hasError = false := by
  -- A part takes any number of items, so the induction is on how many are left.
  induction n using Nat.strong_induction_on generalizing items c fuel parts with
  | _ n ih =>
    obtain ⟨fuel, rfl⟩ := Nat.exists_eq_succ_of_ne_zero (Nat.ne_zero_of_lt hfuel)
    by_cases hitems : items = []
    · subst hitems
      refine ⟨[], [], ?_, rfl, .nil, by simp⟩
      rw [List.append_nil]
      exact iterate_done fuel (stringStep_end hrest parts)
    obtain ⟨kind, first, rest, rfl, hfirst, hadmittedRest, hhead, hpart, hisPart⟩ :=
      exists_part hquote hitems hadmitted hrest hc
    rw [List.flatMap_append] at hrest ⊢
    have hlength : rest.length < n := by
      have := List.length_pos_iff.mpr hfirst
      simp only [List.length_append] at hn
      omega
    obtain ⟨new, groups, hrun, hgroups, hparts, hnew⟩ :=
      ih rest.length hlength rest rfl hadmittedRest
      (hc.advance (first.flatMap StringItem.chars).length)
      (by rw [Cursor.rest_advance, hrest, List.append_assoc, List.drop_left]) fuel (by omega)
      (parts ++ [tree kind c (c.advance (first.flatMap StringItem.chars).length) []])
    refine ⟨_ :: new, first :: groups, ?_, by rw [List.flatten_cons, hgroups],
      .cons hisPart hparts, ?_⟩
    · rw [iterate_more fuel (stringStep_part hhead hpart parts), hrun]
      simp
    · intro t ht
      rcases List.mem_cons.mp ht with rfl | ht
      · exact ⟨rfl, rfl⟩
      · exact hnew t ht

theorem hasError_tree {kind : String} {start stop : Cursor} {children : List ConcreteTree}
    (h : ∀ t ∈ children, t.hasError = false) :
    (tree kind start stop children).hasError = false := by
  have hany : ConcreteTree.anyHasError children = false := by
    induction children with
    | nil => rfl
    | cons t rest ih =>
      rw [List.forall_mem_cons] at h
      rw [ConcreteTree.anyHasError, h.1, ih h.2, Bool.or_self]
  rw [tree, ConcreteTree.hasError, hany]
  rfl

/-- A string literal is read up to its closing quote, and its node is that of the literal. -/
theorem string_run (l : StringLiteral) (hc : Place source c) {after : List Char}
    (hrest : c.rest = l.chars ++ after) (hskip : c.skipTrivia = c) :
    ∃ parts,
      string c = some (tree "string" c (c.advance l.chars.length) parts, c.advance l.chars.length) ∧
      Concrete.IsString source (tree "string" c (c.advance l.chars.length) parts) l ∧
      (tree "string" c (c.advance l.chars.length) parts).hasError = false := by
  obtain ⟨quote, isQuote, items, admitted⟩ := l
  have hquote : quote ≠ '\\' := by
    rintro rfl
    simp at isQuote
  have hopen : c.rest = quote :: (items.flatMap StringItem.chars ++ quote :: after) := by
    rw [hrest, StringLiteral.chars]
    simp
  have hinner : (c.advance 1).rest = items.flatMap StringItem.chars ++ quote :: after := by
    rw [Cursor.rest_advance, hopen, List.drop_one, List.tail_cons]
  have hfuel : items.length < (items.flatMap StringItem.chars ++ quote :: after).length + 1 := by
    have hlength := StringItem.length_le_length_chars items
    simp only [List.length_append]
    omega
  obtain ⟨parts, groups, hrun, hgroups, hparts, herror⟩ :=
    iterate_stringStep hquote items.length items rfl admitted (hc.advance 1) hinner _ hfuel []
  have hclosing : ((c.advance 1).advance (items.flatMap StringItem.chars).length).rest =
      quote :: after := by
    rw [Cursor.rest_advance, hinner, List.drop_left]
  have hstop : ((c.advance 1).advance (items.flatMap StringItem.chars).length).advance 1 =
      c.advance (StringLiteral.chars ⟨quote, isQuote, items, admitted⟩).length := by
    simp only [Cursor.advance_add, StringLiteral.chars, List.length_append, List.length_cons,
      List.length_nil]
    congr 1
    omega
  refine ⟨parts, ?_, ?_, ?_⟩
  · unfold string
    rw [bind_run (skip_run c), hskip]
    simp only [hopen]
    rw [bind_run (require_run (by simpa using isQuote) c), bind_run (take_run 1 c)]
    show (iterate (stringStep quote) _ [] >>= _) _ = _
    rw [bind_run hrun, bind_run (get_run _), hclosing, bind_run (require_run (by simp) _),
      bind_run (take_run 1 _), bind_run (get_run _), hstop]
    rfl
  · have hspans := hc.spans (StringLiteral.chars ⟨quote, isQuote, items, admitted⟩).length
    rw [hrest, List.take_left] at hspans
    have hnamed : parts.filter ConcreteTree.named = parts :=
      List.filter_eq_self.mpr fun t ht => (herror t ht).1
    refine ⟨rfl, hspans.text_eq, groups, hgroups, ?_⟩
    show List.Forall₂ _ (parts.filter ConcreteTree.named) groups
    rw [hnamed]
    exact hparts
  · exact hasError_tree fun t ht => (herror t ht).2

end Scan

section Numbers

variable {cs : List Char}

/-- Digits alone are one run. -/
theorem digitRun_digits (h : ∀ d ∈ cs, (Numeral.digit? 10 d).isSome = true) :
    digitRun 10 cs = cs.length := by
  have hgo : ∀ (ds : List Char) (n : Nat), (∀ d ∈ ds, (Numeral.digit? 10 d).isSome = true) →
      digitRun.go 10 n ds = n + ds.length := by
    intro ds
    induction ds with
    | nil => exact fun n _ => rfl
    | cons d ds ih =>
      intro n hds
      rw [List.forall_mem_cons] at hds
      have hne : d ≠ '_' := by
        rintro rfl
        exact absurd hds.1 (by decide)
      rw [digitRun.go, if_pos hds.1, ih (n + 1) hds.2, List.length_cons]
      · omega
      · intro e rest heq
        exact absurd heq hne
  cases cs with
  | nil => rfl
  | cons d ds =>
    rw [List.forall_mem_cons] at h
    rw [digitRun, if_pos h.1, hgo ds 1 h.2, List.length_cons, Nat.add_comm]

/-- Digits alone have no fraction and no exponent. -/
theorem decimalLength_digits (h : ∀ d ∈ cs, (Numeral.digit? 10 d).isSome = true) :
    decimalLength cs = cs.length := by
  have hpoint : '.' ∉ cs := fun hmem => absurd (h '.' hmem) (by decide)
  have hexponent : exponentLength (cs.drop (wholeLength cs)) = 0 := by
    cases hdrop : cs.drop (wholeLength cs) with
    | nil => rfl
    | cons d rest =>
      have hd := h d (List.mem_of_mem_drop (hdrop ▸ List.mem_cons_self))
      have hne : ¬ (d == 'e' || d == 'E') = true := by
        intro he
        simp only [Bool.or_eq_true, beq_iff_eq] at he
        rcases he with rfl | rfl <;> exact absurd hd (by decide)
      rw [exponentLength, if_neg hne]
  unfold decimalLength
  dsimp only
  split
  · exact absurd List.mem_cons_self hpoint
  · rename_i hdrop
    exact absurd (List.mem_of_mem_drop (hdrop ▸ List.mem_cons_self)) hpoint
  · rw [hexponent, digitRun_digits h]
    simp

theorem numberLength_digits (h : ∀ d ∈ cs, (Numeral.digit? 10 d).isSome = true) :
    numberLength cs = cs.length := by
  have hmark {c : Char} (hc : c ∈ cs) : Numeral.markedBase? c = none := by
    unfold Numeral.markedBase?
    split <;> first | rfl | exact absurd (h _ hc) (by decide)
  unfold numberLength
  split
  · rename_i c rest
    rw [hmark (by simp)]
    simp only [digitRun_digits h, decimalLength_digits h]
    simp
  · simp only [digitRun_digits h, decimalLength_digits h]
    simp

end Numbers

end SourceText

end Sil
