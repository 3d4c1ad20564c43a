import Mathlib
import Sil.Proofs.IntegerLiterals
import Sil.Proofs.NearestNumber

/-!
Decimal literals: digits with a point or an exponent, and single underscores between the digits if
one likes. Main statement: `Sil.NumberLiteral.node_decimal`, the node of a decimal literal holds the
number that is nearest to its mathematical value.
-/
namespace Sil

structure ExponentPart where
  capital : Bool
  sign : Option Bool
  digits : Digits 10

namespace ExponentPart

def signChars : Option Bool → List Char
  | none => []
  | some negative => [if negative then '-' else '+']

def chars (e : ExponentPart) : List Char :=
  (if e.capital then 'E' else 'e') :: signChars e.sign ++ e.digits.chars

def value (e : ExponentPart) : Int :=
  if e.sign = some true then -WrittenDigit.positional e.digits.all
  else WrittenDigit.positional e.digits.all

end ExponentPart

inductive Significand where
  | whole (digits : Digits 10)
  | pointed (digits : Digits 10) (fraction : Option (Digits 10))
  | fraction (digits : Digits 10)

namespace Significand

def chars : Significand → List Char
  | whole digits => digits.chars
  | pointed digits none => digits.chars ++ ['.']
  | pointed digits (some more) => digits.chars ++ '.' :: more.chars
  | fraction digits => '.' :: digits.chars

def beforePoint : Significand → List (WrittenDigit 10)
  | whole digits => digits.all
  | pointed digits _ => digits.all
  | fraction _ => []

def afterPoint : Significand → List (WrittenDigit 10)
  | whole _ => []
  | pointed _ none => []
  | pointed _ (some more) => more.all
  | fraction digits => digits.all

def hasPoint : Significand → Bool
  | whole _ => false
  | _ => true

end Significand

structure DecimalNumeral where
  significand : Significand
  exponent : Option ExponentPart

namespace DecimalNumeral

def exponentChars : Option ExponentPart → List Char
  | none => []
  | some e => e.chars

def chars (l : DecimalNumeral) : List Char := l.significand.chars ++ exponentChars l.exponent

def spelling (l : DecimalNumeral) : String := String.ofList l.chars

/-- All digits but those of the exponent, read as one integer. -/
def digits (l : DecimalNumeral) : Nat :=
  WrittenDigit.positional (l.significand.beforePoint ++ l.significand.afterPoint)

/-- The power of ten that the integer is multiplied by. -/
def scale (l : DecimalNumeral) : Int :=
  (l.exponent.map ExponentPart.value).getD 0 - l.significand.afterPoint.length

def number (l : DecimalNumeral) : Binary64 :=
  .ofRatio false (l.digits * 10 ^ l.scale.toNat) (10 ^ (-l.scale).toNat)

theorem isNearest_number (l : DecimalNumeral) :
    Binary64.IsNearest (l.digits * 10 ^ l.scale) l.number := by
  rw [← Binary64.decimal_eq]
  exact Binary64.isNearest_ofRatio false _ (Nat.pos_of_neZero _)

end DecimalNumeral

/-- A number literal that is no integer literal, for it has a point or an exponent. -/
structure DecimalLiteral extends DecimalNumeral where
  isDecimal : significand.hasPoint || exponent.isSome

namespace Significand

def plain (s : Significand) : List Char :=
  s.beforePoint.map WrittenDigit.char ++
    if s.hasPoint then '.' :: s.afterPoint.map WrittenDigit.char else []

theorem filter_chars (s : Significand) : s.chars.filter (· != '_') = s.plain := by
  cases s with
  | whole digits => simp [chars, plain, beforePoint, hasPoint, digits.filter_chars]
  | pointed digits more =>
    cases more with
    | none => simp [chars, plain, beforePoint, afterPoint, hasPoint, digits.filter_chars]
    | some more =>
      simp [chars, plain, beforePoint, afterPoint, hasPoint, digits.filter_chars, more.filter_chars]
  | fraction digits =>
    simp [chars, plain, beforePoint, afterPoint, hasPoint, digits.filter_chars]

/-- A significand opens with a digit or with its point. -/
theorem exists_cons (s : Significand) : ∃ c rest, s.plain = c :: rest ∧
    ((∃ d : WrittenDigit 10, c = d.char) ∨ c = '.') := by
  cases s with
  | whole digits => exact ⟨_, _, rfl, .inl ⟨digits.first, rfl⟩⟩
  | pointed digits more => exact ⟨_, _, rfl, .inl ⟨digits.first, rfl⟩⟩
  | fraction digits => exact ⟨_, _, rfl, .inr rfl⟩

end Significand

namespace ExponentPart

def plain (e : ExponentPart) : List Char :=
  (if e.capital then 'E' else 'e') :: signChars e.sign ++ e.digits.all.map WrittenDigit.char

theorem filter_chars (e : ExponentPart) : e.chars.filter (· != '_') = e.plain := by
  obtain ⟨capital, sign, digits⟩ := e
  have hsign : (signChars sign).filter (· != '_') = signChars sign := by
    rcases sign with - | - | - <;> rfl
  cases capital <;> simp [chars, plain, hsign, digits.filter_chars]

end ExponentPart

namespace DecimalNumeral

def plain (l : DecimalNumeral) : List Char :=
  l.significand.plain ++ (l.exponent.map ExponentPart.plain).getD []

theorem filter_chars (l : DecimalNumeral) : l.chars.filter (· != '_') = l.plain := by
  rw [chars, plain, List.filter_append, Significand.filter_chars]
  cases l.exponent with
  | none => rfl
  | some e => rw [exponentChars, e.filter_chars]; rfl

/-- A digit, or another character of a decimal literal without underscores. -/
def IsDecimalChar (c : Char) : Prop :=
  (∃ d : WrittenDigit 10, c = d.char) ∨ c ∈ ['.', 'e', 'E', '+', '-']

theorem isDecimalChar_of_mem (l : DecimalNumeral) {c : Char} (h : c ∈ l.plain) :
    IsDecimalChar c := by
  have hdigits {ds : List (WrittenDigit 10)} (h : c ∈ ds.map WrittenDigit.char) :
      IsDecimalChar c := by
    obtain ⟨d, -, rfl⟩ := List.mem_map.mp h
    exact .inl ⟨d, rfl⟩
  rw [plain, List.mem_append, Significand.plain, List.mem_append] at h
  rcases h with (h | h) | h
  · exact hdigits h
  · split at h
    · rcases List.mem_cons.mp h with rfl | h
      · exact .inr (by decide)
      · exact hdigits h
    · cases h
  · cases hexponent : l.exponent with
    | none =>
      rw [hexponent] at h
      cases h
    | some e =>
      obtain ⟨capital, sign, digits⟩ := e
      rw [hexponent, Option.map_some, Option.getD_some, ExponentPart.plain, List.mem_append,
        List.mem_cons] at h
      rcases h with (rfl | h) | h
      · cases capital <;> exact .inr (by simp)
      · rcases sign with - | - | -
        · cases h
        · exact .inr (by simp_all [ExponentPart.signChars])
        · exact .inr (by simp_all [ExponentPart.signChars])
      · exact hdigits h

end DecimalNumeral

/-- The mark by which a decimal literal is told from an integer. -/
theorem DecimalLiteral.exists_mark (l : DecimalLiteral) :
    ∃ c ∈ l.plain, c ∈ ['.', 'e', 'E'] := by
  obtain ⟨⟨s, exponent⟩, isDecimal⟩ := l
  rw [Bool.or_eq_true] at isDecimal
  rcases isDecimal with h | h
  · exact ⟨'.', by simp [DecimalNumeral.plain, Significand.plain, h], by decide⟩
  · obtain ⟨⟨capital, sign, digits⟩, rfl⟩ := Option.isSome_iff_exists.mp h
    refine ⟨if capital then 'E' else 'e', ?_, ?_⟩
    · simp [DecimalNumeral.plain, ExponentPart.plain]
    · cases capital <;> decide

namespace Numeral
open DecimalNumeral

theorem decimalDigit_spec (d : WrittenDigit 10) : isDigit d.char = true ∧
    markedBase? d.char = none ∧ d.char.toLower ≠ 'i' ∧ d.char.toLower ≠ 'n' ∧ d.char ≠ '-' ∧
      d.char ≠ '+' := by
  obtain ⟨value, capital⟩ := d
  revert value capital
  decide

theorem isDecimalChar_spec {c : Char} (h : IsDecimalChar c) : Text.plainDigit c = c ∧
    Text.isBlank c = false ∧ markedBase? c = none ∧ c.toLower ≠ 'i' ∧ c.toLower ≠ 'n' := by
  rcases h with ⟨d, rfl⟩ | h
  · have hplain := isPlain_char (by decide) d
    obtain ⟨-, hmark, hi, hn, -⟩ := decimalDigit_spec d
    exact ⟨Text.plainDigit_of_isPlain hplain, Text.isBlank_of_isPlain hplain, hmark, hi, hn⟩
  · fin_cases h <;> decide

theorem digits?_eq_none {base : Nat} {cs : List Char} {c : Char} (h : c ∈ cs)
    (hc : digit? base c = none) (hne : c ≠ '_') : digits? base cs = none := by
  fun_induction digits? base cs with
  | case1 => rfl
  | case2 d =>
    cases List.mem_singleton.mp h
    rw [hc]
    rfl
  | case3 d rest ih =>
    rcases List.mem_cons.mp h with rfl | h
    · rw [hc]
      rfl
    · rw [ih ((List.mem_cons.mp h).resolve_left hne)]
      cases digit? base d <;> rfl
  | case4 d rest _ _ ih =>
    rcases List.mem_cons.mp h with rfl | h
    · rw [hc]
      rfl
    · rw [ih h]
      cases digit? base d <;> rfl

theorem isLegacy_eq_false {base : Nat} {cs : List Char} {c : Char} (h : c ∈ cs)
    (hc : digit? base c = none) (hne : c ≠ '0') : NumberLiteral.isLegacy base cs = false := by
  unfold NumberLiteral.isLegacy
  split
  · rename_i d rest
    have hmem : c ∈ d :: rest := (List.mem_cons.mp h).resolve_left hne
    rw [Bool.eq_false_iff]
    intro hall
    have hsome := List.all_eq_true.mp hall c hmem
    rw [hc] at hsome
    cases hsome
  · rfl

/-- A decimal numeral has no sign and no blanks around it. -/
theorem splitSign_plain (l : DecimalNumeral) :
    splitSign (Text.trimBlanks (l.plain.map Text.plainDigit)) = (false, l.plain) := by
  have hchars := fun c hc => isDecimalChar_spec (l.isDecimalChar_of_mem (c := c) hc)
  rw [List.map_congr_left fun c hc => (hchars c hc).1, List.map_id',
    Text.trimBlanks_of_not_isBlank fun c hc => (hchars c hc).2.1]
  obtain ⟨c, rest, hcons, hc⟩ := l.significand.exists_cons
  have hsign : c ≠ '-' ∧ c ≠ '+' := by
    rcases hc with ⟨d, rfl⟩ | rfl
    · exact (decimalDigit_spec d).2.2.2.2
    · decide
  rw [plain, hcons, List.cons_append]
  unfold splitSign
  split
  · rename_i heq
    exact absurd (List.cons.inj heq).1 hsign.1
  · rename_i heq
    exact absurd (List.cons.inj heq).1 hsign.2
  · rfl

theorem splitBase_plain (l : DecimalNumeral) :
    ∃ zeroOnly, splitBase none l.plain = (10, l.plain, zeroOnly) := by
  have hmark := fun c hc => (isDecimalChar_spec (l.isDecimalChar_of_mem (c := c) hc)).2.2.1
  generalize l.plain = cs at *
  unfold splitBase
  split
  · rename_i heq
    cases heq
  · rename_i heq _
    cases heq
  · rename_i c rest heq
    rw [hmark c (by simp)]
    exact ⟨true, rfl⟩
  · exact ⟨false, rfl⟩

/-- A decimal literal is not read as an integer. -/
theorem readInt_plain (l : DecimalLiteral) : ∃ why, readInt none l.plain = .error why := by
  obtain ⟨zeroOnly, hsplit⟩ := splitBase_plain l.toDecimalNumeral
  obtain ⟨c, hmem, hc⟩ := l.exists_mark
  have hdigit : digit? 10 c = none ∧ c ≠ '_' := by
    fin_cases hc <;> decide
  rw [readInt, splitSign_plain]
  simp only [hsplit, digits?_eq_none hmem hdigit.1 hdigit.2]
  split
  · exact ⟨_, rfl⟩
  · exact ⟨_, rfl⟩

/-- The parts of a text that opens with digits. -/
theorem span_digits (ds : List (WrittenDigit 10)) {tail : List Char}
    (htail : ∀ c, tail.head? = some c → isDigit c = false) :
    (ds.map WrittenDigit.char ++ tail).takeWhile isDigit = ds.map WrittenDigit.char ∧
      (ds.map WrittenDigit.char ++ tail).dropWhile isDigit = tail := by
  have hdigits : ∀ c ∈ ds.map WrittenDigit.char, isDigit c = true := by
    intro c hc
    obtain ⟨d, -, rfl⟩ := List.mem_map.mp hc
    exact (decimalDigit_spec d).1
  rw [List.takeWhile_append_of_pos hdigits, List.dropWhile_append_of_pos hdigits]
  cases tail with
  | nil => simp
  | cons c rest =>
    have hc := htail c rfl
    simp [hc]

theorem decimalValue_eq (ds : List (WrittenDigit 10)) :
    decimalValue (ds.map WrittenDigit.char) = WrittenDigit.positional ds := by
  rw [decimalValue, filterMap_digit? (by decide) fun d _ => d.value.isLt,
    positionalValue_eq_ofDigits]
  rfl

theorem splitSign_digits (sign : Option Bool) (digits : Digits 10) :
    splitSign (ExponentPart.signChars sign ++ digits.all.map WrittenDigit.char) =
      (decide (sign = some true), digits.all.map WrittenDigit.char) := by
  rcases sign with - | - | -
  · have hsign := (decimalDigit_spec digits.first).2.2.2.2
    show splitSign (digits.first.char :: _) = (false, digits.first.char :: _)
    unfold splitSign
    split
    · rename_i heq
      exact absurd (List.cons.inj heq).1 hsign.1
    · rename_i heq
      exact absurd (List.cons.inj heq).1 hsign.2
    · rfl
  · rfl
  · rfl

theorem readExponent?_plain (exponent : Option ExponentPart) :
    readExponent? ((exponent.map ExponentPart.plain).getD []) =
      some ((exponent.map ExponentPart.value).getD 0) := by
  cases exponent with
  | none => rfl
  | some e =>
    obtain ⟨capital, sign, digits⟩ := e
    have hletter : ((if capital then 'E' else 'e') == 'e' ||
        (if capital then 'E' else 'e') == 'E') = true := by
      cases capital <;> rfl
    have hsome : (digits.all.map WrittenDigit.char).isEmpty = false := rfl
    have hdigits : (digits.all.map WrittenDigit.char).all isDigit = true := by
      rw [List.all_map, List.all_eq_true]
      exact fun d _ => (decimalDigit_spec d).1
    rw [Option.map_some, Option.getD_some, Option.map_some, Option.getD_some, ExponentPart.plain,
      List.cons_append, readExponent?, if_pos hletter, splitSign_digits]
    simp only [hsome, hdigits, decimalValue_eq, ExponentPart.value]
    by_cases h : sign = some true <;> simp [h]

theorem readUnsignedDecimal?_plain (l : DecimalNumeral) :
    readUnsignedDecimal? false l.plain = some (.ofDecimal false l.digits l.scale) := by
  obtain ⟨s, exponent⟩ := l
  have hexponent := readExponent?_plain exponent
  -- What follows the digits opens with the letter of the exponent.
  have htail : ∀ c, ((exponent.map ExponentPart.plain).getD []).head? = some c →
      isDigit c = false ∧ c ≠ '.' := by
    intro c hc
    cases exponent with
    | none => cases hc
    | some e =>
      obtain ⟨capital, sign, digits⟩ := e
      cases capital <;> cases hc <;> simp [isDigit, digit?]
  simp only [plain, Significand.plain, DecimalNumeral.digits, scale]
  generalize (exponent.map ExponentPart.plain).getD [] = tail at *
  generalize (exponent.map ExponentPart.value).getD 0 = power at *
  obtain ⟨hfraction, hrest⟩ := span_digits s.afterPoint fun c hc => (htail c hc).1
  have hsome : ((s.beforePoint.map WrittenDigit.char).isEmpty &&
      (s.afterPoint.map WrittenDigit.char).isEmpty) = false := by
    cases s <;> rfl
  cases hpoint : s.hasPoint with
  | true =>
    obtain ⟨hbefore, hafter⟩ := @span_digits s.beforePoint
      ('.' :: (s.afterPoint.map WrittenDigit.char ++ tail)) (by simp [isDigit, digit?])
    rw [if_pos rfl, List.append_assoc, List.cons_append, readUnsignedDecimal?]
    simp only [hbefore, hafter, hfraction, hrest, hexponent, ← List.map_append, decimalValue_eq,
      List.length_map, hsome]
    rfl
  | false =>
    have hnone : s.afterPoint = [] := by
      cases s with
      | whole digits => rfl
      | pointed digits more => cases hpoint
      | fraction digits => cases hpoint
    obtain ⟨hbefore, hafter⟩ := span_digits s.beforePoint fun c hc => (htail c hc).1
    rw [if_neg Bool.false_ne_true, List.append_nil, readUnsignedDecimal?]
    simp only [hbefore, hafter]
    split
    · rename_i more
      exact absurd rfl (htail '.' rfl).2
    · have hdigits : s.beforePoint ≠ [] := by simpa [hnone] using hsome
      simp [hnone, hdigits, hexponent, decimalValue_eq]

/-- A decimal numeral is read as the number nearest to it. -/
theorem readFloat?_plain (l : DecimalNumeral) : readFloat? l.plain = some l.number := by
  have hname (name : String) (c : Char) (rest : List Char) (hname : name.toList = c :: rest)
      (hc : c = 'i' ∨ c = 'n') : String.ofList (lowered l.plain) ≠ name := by
    rintro rfl
    obtain ⟨d, more, hcons, -⟩ := l.significand.exists_cons
    have hmem : d ∈ l.plain := by simp [plain, hcons]
    obtain ⟨-, -, -, hi, hn⟩ := isDecimalChar_spec (l.isDecimalChar_of_mem hmem)
    rw [String.toList_ofList, plain, hcons] at hname
    have hhead : d.toLower = c := (List.cons.inj hname).1
    rcases hc with rfl | rfl
    · exact hi hhead
    · exact hn hhead
  rw [readFloat?, splitSign_plain]
  simp only [hname "inf" 'i' _ rfl (.inl rfl), hname "infinity" 'i' _ rfl (.inl rfl),
    hname "nan" 'n' _ rfl (.inr rfl), readUnsignedDecimal?_plain, Binary64.ofDecimal_eq_ofRatio]
  rfl

end Numeral

namespace NumberLiteral
open Numeral

/-- The value of a decimal literal. -/
theorem value_decimal (l : DecimalLiteral) : value l.plain = .ok (.float l.number) := by
  obtain ⟨c, hmem, hc⟩ := l.exists_mark
  have hmark : digit? 8 c = none ∧ digit? 10 c = none ∧ c ≠ '0' := by
    fin_cases hc <;> decide
  obtain ⟨why, hint⟩ := readInt_plain l
  rw [value, isLegacy_eq_false hmem hmark.1 hmark.2.2, isLegacy_eq_false hmem hmark.2.1 hmark.2.2,
    hint, readFloat?_plain]
  rfl

/-- The node of a decimal literal holds the number nearest to its value. -/
theorem node_decimal (l : DecimalLiteral) (loc : Location) :
    node l.spelling loc = .ok (.literal (some loc) (.float l.number) l.spelling) := by
  have hlast : l.chars.getLast? ≠ some 'n' := by
    intro hlast
    have hmem : 'n' ∈ l.plain := by
      rw [← l.filter_chars]
      exact List.mem_filter.mpr ⟨List.mem_of_getLast? hlast, by decide⟩
    exact (isDecimalChar_spec (l.isDecimalChar_of_mem hmem)).2.2.2.2 (by decide)
  rw [node, DecimalNumeral.spelling, String.toList_ofList, if_neg hlast, l.filter_chars,
    value_decimal]
  rfl

end NumberLiteral

end Sil
