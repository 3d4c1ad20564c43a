import Mathlib
import Sil.Instruction
import Sil.Proofs.LiteralPrograms

/-!
The spelling of a value without a source is a JavaScript literal of this value, and it is read back
to it. Main statement: `Sil.spelling_reads_back`. A code point outside the basic plane is spelled as
its two code units, which are read back as two code points, so a string keeps its units but not its
code points.
-/
namespace Sil

/-- The item keeps its meaning and ends at the same place whatever comes after it. -/
def StringItem.Settled (quote : Char) : StringItem → Prop
  | plain c => c ∉ [quote, '\\', '\n', '\r']
  | escape e => e.Kept ∧ ∀ next, e.EndsBefore next

theorem StringItem.admitted_of_settled {quote : Char} {items : List StringItem}
    (h : ∀ i ∈ items, i.Settled quote) : Admitted quote items := by
  induction items with
  | nil => trivial
  | cons item items ih =>
    rw [List.forall_mem_cons] at h
    cases item with
    | plain c => exact ⟨h.1, ih h.2⟩
    | escape e => exact ⟨h.1.2 _, ih h.2⟩

namespace Text

def lowDigit (n : Nat) : WrittenDigit 16 := ⟨⟨n % 16, Nat.mod_lt n (by decide)⟩, false⟩

theorem char_lowDigit (n : Nat) : (lowDigit n).char = hexDigit (n % 16) := by
  have hall : ∀ v : Fin 16, WrittenDigit.char ⟨v, false⟩ = hexDigit v.val := by decide
  exact hall ⟨n % 16, Nat.mod_lt n (by decide)⟩

def unitDigits (n : Nat) : List (WrittenDigit 16) :=
  [lowDigit (n / 16 / 16 / 16), lowDigit (n / 16 / 16), lowDigit (n / 16), lowDigit n]

theorem positional_unitDigits {n : Nat} (h : n < 0x10000) :
    WrittenDigit.positional (unitDigits n) = n := by
  simp only [WrittenDigit.positional, unitDigits, lowDigit, List.map_cons, List.map_nil,
    List.reverse_cons, List.reverse_nil, List.nil_append, List.cons_append, Nat.ofDigits_cons,
    Nat.ofDigits_nil]
  omega

theorem unitEscape_eq (n : Nat) :
    unitEscape n = '\\' :: 'u' :: (unitDigits n).map WrittenDigit.char := by
  simp [unitEscape, hexDigits, unitDigits, char_lowDigit]

def unitForm (n : Nat) : EscapeForm :=
  .unit (lowDigit (n / 16 / 16 / 16)) (lowDigit (n / 16 / 16)) (lowDigit (n / 16)) (lowDigit n)

theorem chars_unitForm (n : Nat) : (unitForm n).chars = unitEscape n := (unitEscape_eq n).symm

theorem units_unitForm {n : Nat} (h : n < 0x10000) : (unitForm n).units = [n] := by
  exact congrArg ([·]) (positional_unitDigits h)

theorem settled_unitForm (quote : Char) (n : Nat) :
    (StringItem.escape (unitForm n)).Settled quote :=
  ⟨trivial, fun _ => trivial⟩

theorem settled_single {quote c : Char} (h : IsSingle c) (hc : c ≠ '?') :
    (StringItem.escape (.single c h)).Settled quote :=
  ⟨trivial, fun _ hq => absurd hq hc⟩

/-- A code point that is printed as it is stands for itself in any string. -/
theorem printed_char {c : CodePoint} (hrange : 0x20 ≤ c.val ∧ c.val < 0x7F) (hquote : c.val ≠ 0x22)
    (hbackslash : c.val ≠ 0x5C) :
    CodePoint.ofChar (Char.ofNat c.val) = c ∧ Char.ofNat c.val ∉ ['"', '\\', '\n', '\r'] := by
  have hchar : (Char.ofNat c.val).toNat = c.val := by
    rw [Char.toNat_ofNat, if_pos (.inl (by omega))]
  have hne {d : Char} (hd : c.val ≠ d.toNat) : Char.ofNat c.val ≠ d := by
    rintro rfl
    exact hd hchar.symm
  have hfeed : c.val ≠ '\n'.toNat := by
    simp only [Char.reduceToNat]
    omega
  have hreturn : c.val ≠ '\r'.toNat := by
    simp only [Char.reduceToNat]
    omega
  refine ⟨Fin.ext hchar, ?_⟩
  simp only [List.mem_cons, List.mem_nil_iff, or_false, not_or]
  exact ⟨hne hquote, hne hbackslash, hne hfeed, hne hreturn⟩

/-- A code point is quoted as items that stand for it: a character, an escape sequence, or one for
each of its code units. -/
theorem exists_quotedItems (c : CodePoint) : ∃ items : List StringItem,
    items.flatMap StringItem.chars = quotedPoint c ∧ items.flatMap StringItem.units = c.units ∧
      ∀ i ∈ items, i.Settled '"' := by
  have hsingle {d : Char} (h : IsSingle d) (hd : d ≠ '?')
      (hunits : c.units = (EscapeForm.singlePoint d).units) :
      ∃ items : List StringItem, items.flatMap StringItem.chars = ['\\', d] ∧
        items.flatMap StringItem.units = c.units ∧ ∀ i ∈ items, i.Settled '"' := by
    refine ⟨[.escape (.single d h)], rfl, ?_, ?_⟩
    · rw [hunits, List.flatMap_singleton]
      rfl
    · simpa using settled_single h hd
  have hc := c.isLt
  unfold quotedPoint
  split
  case h_8 hquote hbackslash _ _ _ _ _ =>
    split
    · rename_i hn
      simp only [Bool.and_eq_true, decide_eq_true_eq] at hn
      obtain ⟨hpoint, hplain⟩ := printed_char hn hquote hbackslash
      refine ⟨[.plain (Char.ofNat c.val)], rfl, ?_, List.forall_mem_singleton.mpr hplain⟩
      rw [List.flatMap_singleton, StringItem.units, hpoint]
    split
    · rename_i hsmall
      refine ⟨[.escape (unitForm c.val)], ?_, ?_, ?_⟩
      · rw [List.flatMap_singleton]
        exact chars_unitForm c.val
      · rw [List.flatMap_singleton, CodePoint.units, if_pos hsmall]
        exact units_unitForm hsmall
      · simpa using settled_unitForm '"' c.val
    · rename_i hlarge
      refine ⟨[.escape (unitForm (0xD800 + (c.val - 0x10000) / 0x400)),
        .escape (unitForm (0xDC00 + (c.val - 0x10000) % 0x400))], ?_, ?_, ?_⟩
      · simp only [List.flatMap_cons, List.flatMap_nil, List.append_nil, StringItem.chars,
          chars_unitForm]
      · rw [CodePoint.units, if_neg hlarge]
        simp only [List.flatMap_cons, List.flatMap_nil, StringItem.units]
        rw [units_unitForm (by omega), units_unitForm (by omega)]
        rfl
      · simp [settled_unitForm]
  all_goals
    rename_i h
    refine hsingle (by decide) (by decide) ?_
    rw [CodePoint.units, h]
    rfl

/-- A quoted text is a string literal with the units of the text. -/
theorem exists_quotedLiteral (t : Text) :
    ∃ l : StringLiteral, l.spelling = t.quoted ∧ l.units = t.units ∧
      ∀ e, .escape e ∈ l.items → e.Kept := by
  obtain ⟨items, hchars, hunits, hsettled⟩ : ∃ items : List StringItem,
      items.flatMap StringItem.chars = t.flatMap quotedPoint ∧
        items.flatMap StringItem.units = t.flatMap CodePoint.units ∧
        ∀ i ∈ items, i.Settled '"' := by
    induction t with
    | nil => exact ⟨[], rfl, rfl, by simp⟩
    | cons c t ih =>
      obtain ⟨first, hchars, hunits, hfirst⟩ := exists_quotedItems c
      obtain ⟨rest, hcharsRest, hunitsRest, hrest⟩ := ih
      refine ⟨first ++ rest, ?_, ?_, ?_⟩
      · rw [List.flatMap_append, List.flatMap_cons, hchars, hcharsRest]
      · rw [List.flatMap_append, List.flatMap_cons, hunits, hunitsRest]
      · exact List.forall_mem_append.mpr ⟨hfirst, hrest⟩
  refine ⟨⟨'"', .inl rfl, items, StringItem.admitted_of_settled hsettled⟩, ?_, hunits, ?_⟩
  · rw [StringLiteral.spelling, StringLiteral.chars, hchars]
    rfl
  · exact fun e he => (hsettled _ he).1

end Text

/-- The digits of a number, of which only a lone one can be a zero in front. -/
theorem exists_decimalDigits (n : Nat) : ∃ first more,
    (first :: more).map WrittenDigit.char = Nat.toDigits 10 n ∧
      WrittenDigit.positional (first :: more : List (WrittenDigit 10)) = n ∧
      (first.value.val = 0 → more = []) := by
  induction n using Nat.strong_induction_on with
  | _ n ih =>
    by_cases hn : n < 10
    · refine ⟨⟨⟨n, hn⟩, false⟩, [], ?_, ?_, fun _ => rfl⟩
      · rw [Nat.toDigits_of_lt_base hn]
        rfl
      · simp [WrittenDigit.positional]
    · obtain ⟨first, more, hchars, hvalue, hzero⟩ := ih (n / 10) (by omega)
      refine ⟨first, more ++ [⟨⟨n % 10, Nat.mod_lt n (by decide)⟩, false⟩], ?_, ?_, ?_⟩
      · rw [Nat.toDigits_of_base_le (by decide) (by omega), ← hchars, ← List.cons_append,
          List.map_append]
        rfl
      · rw [← List.cons_append, WrittenDigit.positional, List.map_append, List.reverse_append,
          List.map_singleton, List.reverse_singleton, List.singleton_append, Nat.ofDigits_cons,
          ← WrittenDigit.positional, hvalue]
        dsimp only
        omega
      · intro h
        rw [hzero h] at hvalue
        simp only [WrittenDigit.positional, List.map_singleton, List.reverse_singleton,
          Nat.ofDigits_singleton, h] at hvalue
        omega

/-- The integers that can be written have at most 4300 digits. -/
theorem Numeral.isWritable_iff (n : Int) :
    isWritable n = true ↔ (Nat.toDigits 10 n.natAbs).length ≤ digitLimit := by
  rw [isWritable, decide_eq_true_iff, Nat.pow_eq,
    Nat.length_toDigits_le_iff (by decide) (by decide)]

/-- A number with at most 4300 digits is an integer literal of digits alone. -/
theorem exists_decimalLiteral {n : Nat} (h : (Nat.toDigits 10 n).length ≤ 4300) :
    ∃ l : IntegerLiteral, l.spelling = Nat.repr n ∧ l.value = n ∧ l.Fits ∧ l.chars ≠ [] ∧
      ∀ d ∈ l.chars, (Numeral.digit? 10 d).isSome = true := by
  obtain ⟨first, more, hchars, hvalue, hzero⟩ := exists_decimalDigits n
  have hlength : (first :: more).length ≤ 4300 := by
    rw [← List.length_map WrittenDigit.char, hchars]
    exact h
  have hwritten : Digits.chars ⟨first, more.map fun d => (false, d)⟩ =
      (first :: more).map WrittenDigit.char := by
    simp [Digits.chars, List.flatMap_map, ← List.map_eq_flatMap]
  have hall : Digits.all ⟨first, more.map fun d => (false, d)⟩ = first :: more := by
    simp [Digits.all, Function.comp_def]
  have hbase : IntegerLiteral.base (.unmarked ⟨first, more.map fun d => (false, d)⟩) = 10 := by
    refine if_neg fun hoctal => hoctal.1.2 ?_
    rw [hzero hoctal.1.1]
    rfl
  refine ⟨.unmarked ⟨first, more.map fun d => (false, d)⟩, ?_, ?_, ?_, ?_, ?_⟩
  · rw [IntegerLiteral.spelling, IntegerLiteral.chars, hwritten, hchars,
      Nat.repr_eq_ofList_toDigits]
  · rw [IntegerLiteral.value, hbase, IntegerLiteral.values, hall]
    exact hvalue
  · intro _
    rw [IntegerLiteral.values, hall, List.length_map]
    exact hlength
  · exact List.cons_ne_nil _ _
  · intro d hd
    rw [IntegerLiteral.chars, hwritten] at hd
    obtain ⟨e, -, rfl⟩ := List.mem_map.mp hd
    exact SourceText.isSome_digit?_char (by decide) e

namespace Json

/-- The values of literals that are no fractions. An integer has at most 4300 digits. -/
def IsConstant : Json → Prop
  | null => True
  | bool _ => True
  | int n => (Nat.toDigits 10 n.natAbs).length ≤ 4300
  | str _ => True
  | _ => False

/-- A text is a JavaScript literal of a value. -/
def SpelledBy (raw : String) : Json → Prop
  | null => raw = "null"
  | bool b => raw = if b then "true" else "false"
  | int n => ∃ l : IntegerLiteral, raw = l.spelling ∧ n = l.value
  | str s => ∃ l : StringLiteral, raw = l.spelling ∧ s.units = l.units
  | _ => False

/-- The values are the same, a string being its sequence of UTF-16 code units. -/
def SameUnits : Json → Json → Prop
  | str s, str t => s.units = t.units
  | v, w => v = w

end Json

/-- The operand of a value without a source is spelled as a JavaScript literal of the value, unless
this is negative. A program that is this literal alone is read, and its only node is the literal
with the value and the spelling. -/
theorem spelling_reads_back {host : Host} (hroom : 3 ≤ host.limits.construction) {v : Json}
    (h : v.IsConstant) (hsign : ∀ n, v = .int n → 0 ≤ n) :
    ∃ raw, Operand.literal v "" = .ok (.const v raw) ∧ v.SpelledBy raw ∧
      ∃ w loc place, Node.ofSource host raw =
          .ok (.program loc [.expression loc (.literal place w raw)]) ∧
        v.SameUnits w := by
  cases v with
  | null =>
    obtain ⟨loc, hread⟩ := @SourceText.ofSource_term host "null" _ _ _ hroom rfl rfl rfl rfl
      fun _ => rfl
    exact ⟨"null", rfl, rfl, .null, loc, _, hread, rfl⟩
  | bool b =>
    cases b with
    | false =>
      obtain ⟨loc, hread⟩ := @SourceText.ofSource_term host "false" _ _ _ hroom rfl rfl rfl rfl
        fun _ => rfl
      exact ⟨"false", rfl, rfl, .bool false, loc, _, hread, rfl⟩
    | true =>
      obtain ⟨loc, hread⟩ := @SourceText.ofSource_term host "true" _ _ _ hroom rfl rfl rfl rfl
        fun _ => rfl
      exact ⟨"true", rfl, rfl, .bool true, loc, _, hread, rfl⟩
  | int n =>
    obtain ⟨m, rfl⟩ := Int.eq_ofNat_of_zero_le (hsign n rfl)
    obtain ⟨l, hspelling, hvalue, hfits, hsome, hdigits⟩ := exists_decimalLiteral h
    obtain ⟨loc, place, hread⟩ := SourceText.ofSource_digits hroom hfits hsome hdigits
    have hliteral : Operand.literal (.int m) "" = .ok (.const (.int m) l.spelling) := by
      rw [Operand.literal, if_neg (by simp), Json.isWritable,
        if_pos ((Numeral.isWritable_iff m).mpr h), hspelling]
      rfl
    have hsame : (m : Int) = l.value := by rw [hvalue, Int.natAbs_natCast]
    exact ⟨l.spelling, hliteral, ⟨l, rfl, hsame⟩, .int l.value, loc, place, hread,
      congrArg Json.int hsame⟩
  | str s =>
    obtain ⟨l, hspelling, hunits, hkept⟩ := s.exists_quotedLiteral
    obtain ⟨loc, place, hread⟩ := SourceText.ofSource_string hroom l
    refine ⟨l.spelling, ?_, ⟨l, rfl, hunits.symm⟩, _, loc, place, hread, ?_⟩
    · rw [hspelling]
      rfl
    · exact hunits.symm.trans (l.units_read_eq_iff.mpr hkept).symm
  | float x => exact h.elim
  | arr items => exact h.elim
  | obj fields => exact h.elim

/-- A quote, a character outside the basic plane and half of a surrogate pair. -/
def surrogateText : Text := [0x22, 0x1F600, 0xD83D].map .ofNat

theorem surrogateText_reads_back : Json.IsConstant (.str surrogateText) ∧
    Operand.spell (.str surrogateText) = "\"\\\"\\ud83d\\ude00\\ud83d\"" ∧
    ∃ w loc place, Node.ofSource {} (Operand.spell (.str surrogateText)) =
        .ok (.program loc [.expression loc
          (.literal place w (Operand.spell (.str surrogateText)))]) ∧
      (Json.str surrogateText).SameUnits w := by
  obtain ⟨raw, hliteral, -, hread⟩ :=
    @spelling_reads_back {} (by decide) (.str surrogateText) trivial
    (by simp)
  cases hliteral
  exact ⟨trivial, by decide, hread⟩

end Sil
