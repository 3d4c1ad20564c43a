import Mathlib
import Sil.Concrete.Build
import Sil.Proofs.Basic

/-!
Integer literals. A literal is written as a run of digits, with single underscores between them if
one likes, and perhaps a mark of its base before them. Its node holds the positional value of the
digits in that base: without a mark, a zero in front of other digits makes the base eight if all of
them allow it.
-/
namespace Sil

/-- A digit as it is written: its value, and whether it is a capital if it is a letter. -/
structure WrittenDigit (base : Nat) where
  value : Fin base
  capital : Bool := false

namespace WrittenDigit

variable {base : Nat}

def char (d : WrittenDigit base) : Char :=
  if d.capital then (Nat.digitChar d.value).toUpper else Nat.digitChar d.value

/-- The value of digits by their positions, the last one counting ones. -/
def positional (ds : List (WrittenDigit base)) : Nat :=
  Nat.ofDigits base (ds.map fun d => d.value.val).reverse

end WrittenDigit

namespace Text

/-- A character of ASCII that does not come before the digits. -/
def IsPlain (c : Char) : Prop := 0x30 ≤ c.toNat ∧ c.toNat < 0x80

theorem plainDigit_of_isPlain {c : Char} (h : IsPlain c) : plainDigit c = c := by
  have hzeros : ∀ z ∈ zeroDigits.tail, 0x80 ≤ z := by decide
  have hnone : zeroDigits.tail.find? (fun z => z ≤ c.toNat && c.toNat < z + 10) = none := by
    rw [List.find?_eq_none]
    intro z hz
    have := hzeros z hz
    have := h.2
    simp
    omega
  have hsplit : zeroDigits = 0x30 :: zeroDigits.tail := rfl
  rw [plainDigit, decimalDigit?, hsplit, List.find?_cons, hnone]
  split
  · rename_i d hd
    split at hd
    · cases hd
      rw [Nat.add_sub_cancel' h.1, Char.ofNat_toNat]
    · cases hd
  · rfl

theorem isBlank_of_isPlain {c : Char} (h : IsPlain c) : isBlank c = false := by
  have hwide : ∀ n ∈ wideBlanks, 0x80 ≤ n := by decide
  have hspace : c ≠ ' ' := by
    rintro rfl
    exact absurd h.1 (by decide)
  have hnot : c.toNat ∉ wideBlanks := fun hmem => absurd (hwide _ hmem) (by have := h.2; omega)
  simp only [isBlank, beq_eq_false_iff_ne.mpr hspace, List.contains_eq_mem, hnot, decide_false,
    Bool.or_false, Bool.false_or, Bool.and_eq_false_iff, decide_eq_false_iff_not]
  have := h.1
  omega

theorem trimBlanks_of_not_isBlank {cs : List Char} (h : ∀ c ∈ cs, isBlank c = false) :
    trimBlanks cs = cs := by
  have hkeeps {cs : List Char} (h : ∀ c ∈ cs, isBlank c = false) : cs.dropWhile isBlank = cs := by
    cases cs with
    | nil => rfl
    | cons c rest => rw [List.dropWhile_cons_of_neg (by simp [h c List.mem_cons_self])]
  rw [trimBlanks, hkeeps h, hkeeps (by simpa using h), List.reverse_reverse]

end Text

namespace Numeral
open Text

theorem positionalValue_eq_ofDigits (base : Nat) (ds : List Nat) :
    positionalValue base ds = Nat.ofDigits base ds.reverse := by
  induction ds using List.reverseRecOn with
  | nil => rfl
  | append_singleton ds d ih =>
    rw [List.reverse_append, List.reverse_singleton, List.singleton_append, Nat.ofDigits_cons, ← ih,
      positionalValue, List.foldl_append, List.foldl_cons, List.foldl_nil, Nat.mul_comm,
      Nat.add_comm]
    rfl

section Digits

variable {base : Nat} (hbase : base ≤ 16)
include hbase

/-- The character of a digit stands where its value puts it in one of three ranges. -/
theorem toNat_char (d : WrittenDigit base) :
    (d.value.val < 10 ∧ d.char.toNat = 0x30 + d.value) ∨
      (10 ≤ d.value.val ∧ (d.char.toNat = 0x57 + d.value ∨ d.char.toNat = 0x37 + d.value)) := by
  have hall : ∀ (v : Fin 16) (capital : Bool),
      let n := (if capital then (Nat.digitChar v).toUpper else Nat.digitChar v).toNat
      (v.val < 10 ∧ n = 0x30 + v) ∨ (10 ≤ v.val ∧ (n = 0x57 + v ∨ n = 0x37 + v)) := by decide
  exact hall ⟨d.value, d.value.isLt.trans_le hbase⟩ d.capital

/-- A written digit is a digit of every base above its value. -/
theorem digit?_char (b : Nat) (d : WrittenDigit base) :
    digit? b d.char = if d.value.val < b then some d.value.val else none := by
  have hlt := d.value.isLt
  rcases toNat_char hbase d with ⟨hv, hn⟩ | ⟨hv, hn | hn⟩ <;>
  · simp only [digit?, hn]
    grind

theorem digit?_char_self (d : WrittenDigit base) : digit? base d.char = some d.value.val := by
  rw [digit?_char hbase, if_pos d.value.isLt]

theorem filterMap_digit? {b : Nat} {ds : List (WrittenDigit base)} (h : ∀ d ∈ ds, d.value.val < b) :
    (ds.map WrittenDigit.char).filterMap (digit? b) = ds.map fun d => d.value.val := by
  rw [List.filterMap_map, ← List.filterMap_eq_map]
  refine List.filterMap_congr fun d hd => ?_
  rw [Function.comp_apply, digit?_char hbase, if_pos (h d hd)]
  rfl

theorem isPlain_char (d : WrittenDigit base) : IsPlain d.char := by
  have hlt := d.value.isLt
  rcases toNat_char hbase d with ⟨hv, hn⟩ | ⟨hv, hn | hn⟩ <;> constructor <;> omega

/-- The character of a digit is none that is no digit. -/
theorem char_ne {c : Char} (hc : digit? 16 c = none) (d : WrittenDigit base) : d.char ≠ c := by
  rintro rfl
  rw [digit?_char hbase, if_pos (d.value.isLt.trans_le hbase)] at hc
  cases hc

theorem char_eq_zero (d : WrittenDigit base) : d.char = '0' ↔ d.value.val = 0 := by
  constructor
  · intro h
    have hd := digit?_char hbase 16 d
    rw [h, if_pos (d.value.isLt.trans_le hbase)] at hd
    exact (Option.some.inj hd).symm
  · intro h
    rw [WrittenDigit.char, h]
    cases d.capital <;> rfl

theorem digits?_map_char {ds : List (WrittenDigit base)} (hsome : ds ≠ []) :
    digits? base (ds.map WrittenDigit.char) = some (ds.map fun d => d.value.val) := by
  induction ds with
  | nil => exact absurd rfl hsome
  | cons d rest ih =>
    cases rest with
    | nil => simp [digits?, digit?_char_self hbase]
    | cons e rest =>
      have hrest := ih (by simp)
      simp only [List.map_cons] at hrest ⊢
      rw [digits?, hrest, digit?_char_self hbase]
      · rfl
      · simp
      · intro more h
        exact absurd (List.cons.inj h).1 (char_ne hbase rfl e)

theorem leadingDigits_map_char (ds : List (WrittenDigit base)) :
    leadingDigits base (ds.map WrittenDigit.char) = ds.length := by
  have htake : (ds.map WrittenDigit.char).takeWhile (fun c => (digit? base c).isSome || c == '_') =
      ds.map WrittenDigit.char := by
    rw [List.takeWhile_eq_self_iff]
    intro c hc
    obtain ⟨d, -, rfl⟩ := List.mem_map.mp hc
    simp [digit?_char_self hbase]
  have hfilter : (ds.map WrittenDigit.char).filter (· != '_') = ds.map WrittenDigit.char := by
    rw [List.filter_eq_self]
    intro c hc
    obtain ⟨d, -, rfl⟩ := List.mem_map.mp hc
    simpa using char_ne hbase (c := '_') rfl d
  rw [leadingDigits, htake, hfilter, List.length_map]

/-- A numeral of digits only is read as their positional value, unless they are too many. -/
theorem readInt_digits {mark : Option Nat} {cs : List Char} {ds : List (WrittenDigit base)}
    (hsome : ds ≠ []) (hplain : ∀ c ∈ cs, IsPlain c)
    (hsplit : splitBase mark cs = (base, ds.map WrittenDigit.char, false))
    (hlimit : isBinaryBase base ∨ ds.length ≤ digitLimit) :
    readInt mark cs = .ok (WrittenDigit.positional ds) := by
  have hsign : splitSign (trimBlanks (cs.map plainDigit)) = (false, cs) := by
    rw [List.map_congr_left fun c hc => plainDigit_of_isPlain (hplain c hc), List.map_id',
      trimBlanks_of_not_isBlank fun c hc => isBlank_of_isPlain (hplain c hc)]
    unfold splitSign
    split
    · exact absurd (hplain '-' (by simp)).1 (by decide)
    · exact absurd (hplain '+' (by simp)).1 (by decide)
    · rfl
  have hfew : (!isBinaryBase base && decide (digitLimit < ds.length)) = false := by
    rcases hlimit with h | h
    · simp [h]
    · simp [Nat.not_lt.mpr h]
  rw [readInt, hsign]
  simp only [hsplit, leadingDigits_map_char hbase, hfew, digits?_map_char hbase hsome,
    positionalValue_eq_ofDigits]
  rfl

end Digits

end Numeral

/-- Digits in a row. Each after the first says whether an underscore stands before it. -/
structure Digits (base : Nat) where
  first : WrittenDigit base
  rest : List (Bool × WrittenDigit base)

namespace Digits

variable {base : Nat} (d : Digits base)

def all : List (WrittenDigit base) := d.first :: d.rest.map Prod.snd

def chars : List Char :=
  d.first.char :: d.rest.flatMap fun p => if p.1 then ['_', p.2.char] else [p.2.char]

def HasLeadingZero : Prop := d.first.value.val = 0 ∧ d.rest ≠ []

instance : Decidable d.HasLeadingZero := inferInstanceAs (Decidable (_ ∧ _))

theorem filter_chars (hbase : base ≤ 16) :
    d.chars.filter (· != '_') = d.all.map WrittenDigit.char := by
  have hkeeps (e : WrittenDigit base) : (e.char != '_') = true := by
    simpa using Numeral.char_ne hbase (c := '_') rfl e
  have hrest (rest : List (Bool × WrittenDigit base)) :
      (rest.flatMap fun p => if p.1 then ['_', p.2.char] else [p.2.char]).filter (· != '_') =
        rest.map fun p => p.2.char := by
    induction rest with
    | nil => rfl
    | cons p rest ih =>
      rw [List.flatMap_cons, List.filter_append, ih]
      cases p.1 <;> simp [hkeeps]
  rw [chars, List.filter_cons_of_pos (by exact hkeeps _), hrest, all, List.map_cons, List.map_map]
  rfl

end Digits

inductive BaseMark where
  | hexadecimal
  | octal
  | binary

namespace BaseMark

def base : BaseMark → Nat
  | hexadecimal => 16
  | octal => 8
  | binary => 2

instance (mark : BaseMark) : NeZero mark.base := ⟨by cases mark <;> decide⟩

def letter (capital : Bool) : BaseMark → Char
  | hexadecimal => if capital then 'X' else 'x'
  | octal => if capital then 'O' else 'o'
  | binary => if capital then 'B' else 'b'

end BaseMark

inductive IntegerLiteral where
  | marked (mark : BaseMark) (capital : Bool) (digits : Digits mark.base)
  | unmarked (digits : Digits 10)

namespace IntegerLiteral

def chars : IntegerLiteral → List Char
  | marked mark capital digits => '0' :: mark.letter capital :: digits.chars
  | unmarked digits => digits.chars

def spelling (l : IntegerLiteral) : String := String.ofList l.chars

def values : IntegerLiteral → List Nat
  | marked _ _ digits => digits.all.map fun d => d.value.val
  | unmarked digits => digits.all.map fun d => d.value.val

/-- The base in which the digits count. A zero in front of others makes them octal if they can
be. -/
def base : IntegerLiteral → Nat
  | marked mark _ _ => mark.base
  | unmarked digits =>
    if digits.HasLeadingZero ∧ ∀ d ∈ digits.all, d.value.val < 8 then 8 else 10

def value (l : IntegerLiteral) : Nat := Nat.ofDigits l.base l.values.reverse

/-- The literal is not decimal or has at most 4300 digits. -/
def Fits (l : IntegerLiteral) : Prop := l.base = 10 → l.values.length ≤ 4300

instance (l : IntegerLiteral) : Decidable l.Fits := inferInstanceAs (Decidable (_ → _))

end IntegerLiteral

namespace NumberLiteral
open Numeral IntegerLiteral

theorem markedBase?_letter (mark : BaseMark) (capital : Bool) :
    markedBase? (mark.letter capital) = some mark.base := by
  cases mark <;> cases capital <;> rfl

theorem value_marked (mark : BaseMark) (capital : Bool) (digits : Digits mark.base) :
    value ('0' :: mark.letter capital :: digits.all.map WrittenDigit.char) =
      .ok (.int (IntegerLiteral.value (.marked mark capital digits))) := by
  have hbase : mark.base ≤ 16 := by cases mark <;> decide
  have hall : Text.IsPlain (mark.letter capital) ∧ digit? 8 (mark.letter capital) = none ∧
      digit? 10 (mark.letter capital) = none := by
    cases mark <;> cases capital <;> exact ⟨⟨by decide, by decide⟩, rfl, rfl⟩
  obtain ⟨hletter, height, hten⟩ := hall
  have hsplit : splitBase none ('0' :: mark.letter capital :: digits.all.map WrittenDigit.char) =
      (mark.base, digits.all.map WrittenDigit.char, false) := by
    have hafter : afterMark (digits.all.map WrittenDigit.char) =
        digits.all.map WrittenDigit.char := by
      unfold afterMark
      split
      · rename_i rest h
        exact absurd (List.cons.inj h).1 (char_ne hbase rfl digits.first)
      · rfl
    simp [splitBase, markedBase?_letter, hafter]
  have hplain : ∀ c ∈ '0' :: mark.letter capital :: digits.all.map WrittenDigit.char,
      Text.IsPlain c := by
    intro c hc
    rcases List.mem_cons.mp hc with rfl | hc
    · exact ⟨by decide, by decide⟩
    rcases List.mem_cons.mp hc with rfl | hc
    · exact hletter
    · obtain ⟨d, -, rfl⟩ := List.mem_map.mp hc
      exact isPlain_char hbase d
  have hread := readInt_digits hbase (by simp [Digits.all]) hplain hsplit
      (.inl (by cases mark <;> rfl))
  simp only [value, isLegacy, List.all_cons, height, hten, hread, Option.isSome_none,
    Bool.false_and, Bool.false_eq_true, if_false]
  rfl

/-- Digits are legacy ones of a base if a zero stands before others and all of them are below the
base. -/
theorem isLegacy_iff {b : Nat} (hb : 0 < b) (digits : Digits 10) :
    isLegacy b (digits.all.map WrittenDigit.char) = true ↔
      digits.HasLeadingZero ∧ ∀ d ∈ digits.all, d.value.val < b := by
  have hdigit (d : WrittenDigit 10) : (digit? b d.char).isSome = true ↔ d.value.val < b := by
    rw [digit?_char (by decide)]
    split <;> simp_all
  have hall (first : WrittenDigit 10) (more : List (WrittenDigit 10)) :
      isLegacy b ((first :: more).map WrittenDigit.char) = true ↔
        (first.value.val = 0 ∧ more ≠ []) ∧ ∀ d ∈ first :: more, d.value.val < b := by
    cases more with
    | nil => simp [isLegacy]
    | cons second more =>
      by_cases h : first.value.val = 0
      · have hfirst : first.char = '0' := (char_eq_zero (by decide) first).mpr h
        simp [isLegacy, hfirst, hdigit, h, hb]
      · have hfirst : first.char ≠ '0' := fun hc => h ((char_eq_zero (by decide) first).mp hc)
        simp [isLegacy, hfirst, h]
  rw [Digits.all, hall, Digits.HasLeadingZero, ne_eq, List.map_eq_nil_iff]

/-- Without a zero in front of others, digits are decimal. -/
theorem splitBase_unmarked {digits : Digits 10} (h : ¬ digits.HasLeadingZero) :
    splitBase none (digits.all.map WrittenDigit.char) =
      (10, digits.all.map WrittenDigit.char, false) := by
  obtain ⟨first, rest⟩ := digits
  cases rest with
  | nil => simp [splitBase, Digits.all]
  | cons p rest =>
    have hfirst : first.char ≠ '0' := fun hc => h ⟨(char_eq_zero (by decide) first).mp hc, by simp⟩
    simp [splitBase, Digits.all, hfirst]

theorem value_unmarked (digits : Digits 10) (h : Fits (.unmarked digits)) :
    value (digits.all.map WrittenDigit.char) =
      .ok (.int (IntegerLiteral.value (.unmarked digits))) := by
  have hten : ∀ d ∈ digits.all, d.value.val < 10 := fun d _ => d.value.isLt
  have hlegacy := isLegacy_iff (by decide : 0 < 8) digits
  have hlegacyTen := isLegacy_iff (by decide : 0 < 10) digits
  unfold value
  split
  · rename_i hoctal
    rw [hlegacy] at hoctal
    rw [filterMap_digit? (by decide) hoctal.2, positionalValue_eq_ofDigits, IntegerLiteral.value,
      base, if_pos hoctal]
    rfl
  · rename_i hnot
    rw [hlegacy] at hnot
    have hbase : base (.unmarked digits) = 10 := if_neg hnot
    have hlimit : digits.all.length ≤ digitLimit := by simpa [values, digitLimit] using h hbase
    have hvalue : IntegerLiteral.value (.unmarked digits) = WrittenDigit.positional digits.all := by
      rw [IntegerLiteral.value, hbase]
      rfl
    rw [hvalue]
    split
    · rw [List.length_map, if_neg (Nat.not_lt.mpr hlimit), decimalValue,
        filterMap_digit? (by decide) hten, positionalValue_eq_ofDigits]
      rfl
    · rename_i hnotTen
      have hplain : ∀ c ∈ digits.all.map WrittenDigit.char, Text.IsPlain c := by
        intro c hc
        obtain ⟨d, -, rfl⟩ := List.mem_map.mp hc
        exact isPlain_char (by decide) d
      have hsplit := splitBase_unmarked fun hzero => hnotTen (hlegacyTen.mpr ⟨hzero, hten⟩)
      rw [readInt_digits (by decide) (by simp [Digits.all]) hplain hsplit (.inr hlimit)]

/-- Digits end in a digit. -/
theorem getLast?_chars {base : Nat} (digits : Digits base) :
    ∃ d : WrittenDigit base, digits.chars.getLast? = some d.char := by
  obtain ⟨first, rest⟩ := digits
  rcases List.eq_nil_or_concat rest with rfl | ⟨rest, p, rfl⟩
  · exact ⟨first, rfl⟩
  · refine ⟨p.2, ?_⟩
    rw [Digits.chars, List.concat_eq_append, List.flatMap_append, ← List.cons_append,
      List.flatMap_singleton, List.getLast?_append]
    cases p.1 <;> rfl

/-- The node of an integer literal. -/
theorem node_literal (l : IntegerLiteral) (h : l.Fits) (loc : Location) :
    node l.spelling loc = .ok (.literal (some loc) (.int l.value) l.spelling) := by
  have hvalue : l.chars.getLast? ≠ some 'n' ∧
      value (l.chars.filter (· != '_')) = .ok (.int l.value) := by
    cases l with
    | marked mark capital digits =>
      have hbase : mark.base ≤ 16 := by cases mark <;> decide
      obtain ⟨d, hlast⟩ := getLast?_chars digits
      have hletter : (mark.letter capital != '_') = true := by cases mark <;> cases capital <;> rfl
      refine ⟨?_, ?_⟩
      · show (['0', mark.letter capital] ++ digits.chars).getLast? ≠ some 'n'
        rw [List.getLast?_append, hlast]
        simpa using char_ne hbase (c := 'n') rfl d
      · rw [chars, List.filter_cons_of_pos rfl, List.filter_cons_of_pos (by exact hletter),
          digits.filter_chars hbase, value_marked]
    | unmarked digits =>
      obtain ⟨d, hlast⟩ := getLast?_chars digits
      refine ⟨?_, ?_⟩
      · simpa [chars, hlast] using char_ne (c := 'n') (by decide) rfl d
      · rw [chars, digits.filter_chars (by decide), value_unmarked digits h]
  rw [node, spelling, String.toList_ofList, if_neg hvalue.1, hvalue.2]
  rfl

end NumberLiteral

/-- The node of a number is made from its text. -/
theorem Concrete.nodeWith_number {build : ConcreteTree → Except Error Node} {source : ByteArray}
    {t : ConcreteTree} {raw : String} (hkind : t.kind = "number")
    (htext : text source t = .ok raw) :
    nodeWith build source t = orFault (NumberLiteral.node raw t.location) := by
  simp [nodeWith, hkind, htext, ok_bind]

theorem Concrete.nodeWith_integer {build : ConcreteTree → Except Error Node} {source : ByteArray}
    {t : ConcreteTree} {l : IntegerLiteral} (hl : l.Fits) (hkind : t.kind = "number")
    (htext : text source t = .ok l.spelling) :
    nodeWith build source t = .ok (.literal (some t.location) (.int l.value) l.spelling) := by
  rw [nodeWith_number hkind htext, NumberLiteral.node_literal l hl]
  rfl

/-- The node of an integer literal holds its positional value and its spelling. With the suffix of a
big integer it is a foreign node. -/
theorem integer_literals_are_positional {source : ByteArray} {t : ConcreteTree}
    (build : ConcreteTree → Except Error Node) (hkind : t.kind = "number") :
    (∀ l : IntegerLiteral, l.Fits → Concrete.text source t = .ok l.spelling →
      Concrete.nodeWith build source t =
        .ok (.literal (some t.location) (.int l.value) l.spelling)) ∧
    ∀ body : String, Concrete.text source t = .ok (body ++ "n") →
      Concrete.nodeWith build source t = .ok (.foreign (some t.location) "BigIntLiteral") := by
  constructor
  · intro l hl htext
    exact Concrete.nodeWith_integer hl hkind htext
  · intro body htext
    rw [Concrete.nodeWith_number hkind htext, NumberLiteral.node, if_pos (by simp)]
    rfl

/-- `0xFF_0a` -/
def markedNumber : IntegerLiteral :=
  .marked .hexadecimal false
    ⟨⟨15, true⟩, [(false, ⟨15, true⟩), (true, ⟨0, false⟩), (false, ⟨10, false⟩)]⟩

/-- `0780`, which is decimal because of its eight. -/
def zeroFirstNumber : IntegerLiteral :=
  .unmarked ⟨⟨0, false⟩, [(false, ⟨7, false⟩), (false, ⟨8, false⟩), (false, ⟨0, false⟩)]⟩

def numberTree (size : Nat) : ConcreteTree :=
  .node "number" ⟨0, size, 0, 0, 0, size⟩ true none {} []

theorem written_numbers_are_positional :
    (markedNumber.Fits ∧ Concrete.text "0xFF_0a".toUTF8 (numberTree 7) = .ok markedNumber.spelling ∧
      Concrete.node "0xFF_0a".toUTF8 1 (numberTree 7) =
        .ok (.literal (some ⟨1, 0, 1, 7⟩) (.int 65290) "0xFF_0a")) ∧
    (zeroFirstNumber.Fits ∧
      Concrete.text "0780".toUTF8 (numberTree 4) = .ok zeroFirstNumber.spelling ∧
      Concrete.node "0780".toUTF8 1 (numberTree 4) =
        .ok (.literal (some ⟨1, 0, 1, 4⟩) (.int 780) "0780")) ∧
    Concrete.text "7n".toUTF8 (numberTree 2) = .ok ("7" ++ "n") ∧
      Concrete.node "7n".toUTF8 1 (numberTree 2) =
        .ok (.foreign (some ⟨1, 0, 1, 2⟩) "BigIntLiteral") := by
  have hmarked : Concrete.text "0xFF_0a".toUTF8 (numberTree 7) = .ok markedNumber.spelling := by cbv
  have hzeroFirst : Concrete.text "0780".toUTF8 (numberTree 4) = .ok zeroFirstNumber.spelling := by
    cbv
  have hsuffix : Concrete.text "7n".toUTF8 (numberTree 2) = .ok ("7" ++ "n") := by cbv
  refine ⟨⟨by decide, hmarked, ?_⟩, ⟨by decide, hzeroFirst, ?_⟩, hsuffix, ?_⟩
  · exact (integer_literals_are_positional _ rfl).1 markedNumber (by decide) hmarked
  · exact (integer_literals_are_positional _ rfl).1 zeroFirstNumber (by decide) hzeroFirst
  · exact (integer_literals_are_positional _ rfl).2 "7" hsuffix

end Sil
