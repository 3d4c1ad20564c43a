import Mathlib
import Sil.Proofs.DecimalLiterals
import Sil.Proofs.ShortestWhole
import Sil.Proofs.StringLiterals

/-!
What the number literals, string literals and names of a source stand for in its ESTree form. This
is defined from the literals alone, as JavaScript reads them: a number is the floating-point number
nearest to the literal, written into JSON without a point if it is whole; a string is a sequence of
code units, in which surrogates that make a pair are one code point; a name has no escape sequences.
The values that are built for the same tokens agree with these for the tokens that are `Kept`, and
for no others.
-/
namespace Sil

namespace Binary64

/-- A whole number by its shortest digits, followed by zeros. -/
def shortestWhole (m : Nat) (e : Int) : Nat :=
  if m = 0 then 0 else (shortest m e).digits * 10 ^ (shortest m e).scale.toNat

/-- A number as JSON carries it. A whole one has no point and no exponent if it is below `10 ^ 21`,
and an infinite one is not written at all. -/
def asJson : Binary64 → Json
  | .finite negative m e =>
    match toInt? (.finite negative m e) with
    | some n =>
      if n.natAbs < 10 ^ 21 then
        .int (if negative then -shortestWhole m e else shortestWhole m e)
      else .float (.finite negative m e)
    | none => .float (.finite negative m e)
  | .infinite _ => .null
  | .nan => .null

/-- A number that keeps its point in JSON, or its exponent. -/
def StaysFloat (x : Binary64) : Prop :=
  (∃ negative m e, x = .finite negative m e) ∧ ∀ n, x.toInt? = some n → 10 ^ 21 ≤ n.natAbs

theorem asJson_eq_float_iff {x y : Binary64} : x.asJson = .float y ↔ x = y ∧ x.StaysFloat := by
  cases x with
  | finite negative m e =>
    rw [asJson, StaysFloat]
    split
    · rename_i n hn
      simp only [hn, Option.some.injEq, forall_eq']
      split_ifs with h <;> simp <;> omega
    · rename_i hnone
      simp [hnone]
  | infinite negative => simp [asJson, StaysFloat]
  | nan => simp [asJson, StaysFloat]

/-- An integer of at most 53 bits comes back from JSON. -/
theorem asJson_ofRatio {n : Nat} (hn : n < 2 ^ 53) : (ofRatio false n 1).asJson = .int n := by
  rcases Nat.eq_zero_or_pos n with rfl | hpos
  · simp [ofRatio, zero, minExponent, asJson, toInt?, shortestWhole]
  obtain ⟨k, hbound, hround⟩ := exists_ofRatio_eq hpos hn
  have hint : toInt? (.finite false (n * 2 ^ k) (-k)) = some (n : Int) := by
    rcases Nat.eq_zero_or_pos k with rfl | hk
    · simp [toInt?, twoTo_eq]
    · have hdiv : n * 2 ^ k / 2 ^ k = n := Nat.mul_div_cancel _ (Nat.two_pow_pos k)
      simp [toInt?, twoTo_eq, hk.ne', hdiv]
  have hmantissa : n * 2 ^ k ≠ 0 := (Nat.mul_pos hpos (Nat.two_pow_pos k)).ne'
  have hsmall : n < 10 ^ 21 := hn.trans (by norm_num)
  rw [hround, asJson, hint]
  simp only [Int.natAbs_natCast, hsmall, if_true, shortestWhole, if_neg hmantissa,
    shortest_whole hpos hn]
  rfl

end Binary64

/-- A number literal that is no big integer. -/
inductive NumericLiteral where
  | integer (l : IntegerLiteral)
  | decimal (l : DecimalLiteral)

namespace NumericLiteral

def spelling : NumericLiteral → String
  | integer l => l.spelling
  | decimal l => l.spelling

def number : NumericLiteral → Binary64
  | integer l => .ofRatio false l.value 1
  | decimal l => l.number

/-- The literals whose value is built as ESTree has it: an integer that is not too long and that its
nearest number is written as, and a decimal whose number keeps its point or exponent. -/
def Kept : NumericLiteral → Prop
  | integer l => l.Fits ∧ (Binary64.ofRatio false l.value 1).asJson = .int l.value
  | decimal l => l.number.StaysFloat

/-- Integers of at most 53 bits are kept. -/
theorem kept_of_lt {l : IntegerLiteral} (hfits : l.Fits) (h : l.value < 2 ^ 53) :
    Kept (.integer l) :=
  ⟨hfits, Binary64.asJson_ofRatio h⟩

end NumericLiteral

namespace NumberLiteral
open NumericLiteral

/-- Digits without a zero in front are at least the power of ten of their number. -/
theorem ten_pow_le_positional {digits : Digits 10} (h : digits.first.value.val ≠ 0) :
    10 ^ digits.rest.length ≤ WrittenDigit.positional digits.all := by
  have hsplit : WrittenDigit.positional digits.all =
      Nat.ofDigits 10 (digits.rest.map fun p => p.2.value.val).reverse +
        10 ^ digits.rest.length * digits.first.value.val := by
    simp [WrittenDigit.positional, Digits.all, Nat.ofDigits_append, Function.comp_def]
  rw [hsplit]
  exact (Nat.le_mul_of_pos_right _ (Nat.pos_of_ne_zero h)).trans (Nat.le_add_left _ _)

/-- Digits without a zero in front that are too many to be read are beyond all numbers. -/
theorem ofRatio_of_long {digits : Digits 10} (hzero : ¬ digits.HasLeadingZero)
    (hlong : 4300 < digits.all.length) :
    Binary64.ofRatio false (WrittenDigit.positional digits.all) 1 = .infinite false := by
  have hrest : 400 ≤ digits.rest.length := by
    simp only [Digits.all, List.length_cons, List.length_map] at hlong
    omega
  have hfirst : digits.first.value.val ≠ 0 := by
    intro h
    refine hzero ⟨h, ?_⟩
    rintro hnil
    rw [hnil, List.length_nil] at hrest
    omega
  refine Binary64.ofRatio_of_large false one_pos ?_
  rw [Nat.cast_one, div_one]
  calc (10 : ℚ) ^ (400 : Int) ≤ 10 ^ (digits.rest.length : Int) :=
        zpow_le_zpow_right₀ (by norm_num) (by exact_mod_cast hrest)
    _ = (10 ^ digits.rest.length : Nat) := by rw [zpow_natCast, Nat.cast_pow, Nat.cast_ofNat]
    _ ≤ WrittenDigit.positional digits.all := by exact_mod_cast ten_pow_le_positional hfirst

def wholeNumeral (digits : Digits 10) : DecimalNumeral := ⟨.whole digits, none⟩

theorem plain_wholeNumeral (digits : Digits 10) :
    (wholeNumeral digits).plain = digits.all.map WrittenDigit.char := by
  simp [wholeNumeral, DecimalNumeral.plain, Significand.plain, Significand.beforePoint,
    Significand.hasPoint]

theorem readFloat?_digits (digits : Digits 10) :
    Numeral.readFloat? (digits.all.map WrittenDigit.char) =
      some (.ofRatio false (WrittenDigit.positional digits.all) 1) := by
  have hdigits : (wholeNumeral digits).digits = WrittenDigit.positional digits.all := by
    simp [wholeNumeral, DecimalNumeral.digits, Significand.beforePoint, Significand.afterPoint]
  have hnumber : (wholeNumeral digits).number =
      .ofRatio false (WrittenDigit.positional digits.all) 1 := by
    rw [DecimalNumeral.number, hdigits]
    simp [wholeNumeral, DecimalNumeral.scale, Significand.afterPoint]
  rw [← plain_wholeNumeral, Numeral.readFloat?_plain, hnumber]

theorem readInt_of_long {digits : Digits 10} (hzero : ¬ digits.HasLeadingZero)
    (hlong : 4300 < digits.all.length) :
    Numeral.readInt none (digits.all.map WrittenDigit.char) =
      .error (.tooLong digits.all.length) := by
  have hsign := Numeral.splitSign_plain (wholeNumeral digits)
  rw [plain_wholeNumeral] at hsign
  rw [Numeral.readInt, hsign]
  simp only [splitBase_unmarked hzero, Numeral.leadingDigits_map_char (by decide : 10 ≤ 16)]
  rw [if_pos (by simp [Numeral.isBinaryBase, Numeral.digitLimit, hlong])]

/-- An integer of too many digits is infinite, if it is read at all. -/
theorem value_unfit {digits : Digits 10} (h : ¬ IntegerLiteral.Fits (.unmarked digits)) :
    (∃ f, value (digits.all.map WrittenDigit.char) = .error f) ∨
      value (digits.all.map WrittenDigit.char) = .ok (.float (.infinite false)) ∧
        Binary64.ofRatio false (IntegerLiteral.value (.unmarked digits)) 1 = .infinite false := by
  obtain ⟨hbase, hlong⟩ := Classical.not_imp.mp h
  have hlength : IntegerLiteral.values (.unmarked digits) =
      digits.all.map fun d => d.value.val := rfl
  rw [hlength, List.length_map, Nat.not_le] at hlong
  have hvalue : IntegerLiteral.value (.unmarked digits) = WrittenDigit.positional digits.all := by
    rw [IntegerLiteral.value, hbase]
    rfl
  have hoctal : isLegacy 8 (digits.all.map WrittenDigit.char) = false := by
    rw [Bool.eq_false_iff, ne_eq, isLegacy_iff (by decide)]
    intro hoctal
    rw [IntegerLiteral.base, if_pos hoctal] at hbase
    cases hbase
  rw [value, hoctal, if_neg Bool.false_ne_true]
  by_cases hten : isLegacy 10 (digits.all.map WrittenDigit.char)
  · rw [if_pos hten, List.length_map, if_pos (by simpa [Numeral.digitLimit] using hlong)]
    exact .inl ⟨_, rfl⟩
  · have hzero : ¬ digits.HasLeadingZero := fun hzero =>
      hten ((isLegacy_iff (by decide) digits).mpr ⟨hzero, fun d _ => d.value.isLt⟩)
    have hinfinite := ofRatio_of_long hzero hlong
    rw [if_neg hten, readInt_of_long hzero hlong, readFloat?_digits, hvalue, hinfinite]
    exact .inr ⟨rfl, rfl⟩

theorem node_unfit {l : IntegerLiteral} (h : ¬ l.Fits) (loc : Location) :
    (∃ f, node l.spelling loc = .error f) ∨
      node l.spelling loc = .ok (.literal (some loc) (.float (.infinite false)) l.spelling) ∧
        Binary64.ofRatio false l.value 1 = .infinite false := by
  cases l with
  | marked mark capital digits =>
    refine absurd (fun hbase => ?_) h
    cases mark <;> cases hbase
  | unmarked digits =>
    obtain ⟨d, hlast⟩ := getLast?_chars digits
    have hsuffix : digits.chars.getLast? ≠ some 'n' := by
      simpa [hlast] using Numeral.char_ne (c := 'n') (by decide) rfl d
    rw [node, IntegerLiteral.spelling, String.toList_ofList, IntegerLiteral.chars, if_neg hsuffix,
      digits.filter_chars (by decide)]
    rcases value_unfit h with ⟨f, hvalue⟩ | ⟨hvalue, hinfinite⟩
    · rw [hvalue]
      exact .inl ⟨f, rfl⟩
    · rw [hvalue]
      exact .inr ⟨rfl, hinfinite⟩

/-- The node of a number literal is a literal, and it holds the value of ESTree if that is kept. -/
theorem node_numeric (l : NumericLiteral) (loc : Location) :
    (∀ n, node l.spelling loc = .ok n → ∃ v, n = .literal (some loc) v l.spelling) ∧
      (node l.spelling loc = .ok (.literal (some loc) l.number.asJson l.spelling) ↔ l.Kept) := by
  cases l with
  | integer l =>
    by_cases hfits : l.Fits
    · have hnode := node_literal l hfits loc
      simp only [spelling, number, Kept, hfits, true_and, hnode]
      refine ⟨fun n hn => ⟨_, (Except.ok.inj hn).symm⟩, ?_⟩
      simp [eq_comm]
    · simp only [spelling, number, Kept, hfits, false_and, iff_false]
      rcases node_unfit hfits loc with ⟨f, hnode⟩ | ⟨hnode, hinfinite⟩
      · rw [hnode]
        exact ⟨fun n hn => (by cases hn), fun h => (by cases h)⟩
      · rw [hnode, hinfinite]
        exact ⟨fun n hn => ⟨_, (Except.ok.inj hn).symm⟩, fun h => (by cases h)⟩
  | decimal l =>
    have hnode := node_decimal l loc
    simp only [spelling, number, Kept, hnode]
    refine ⟨fun n hn => ⟨_, (Except.ok.inj hn).symm⟩, ?_⟩
    have hiff := @Binary64.asJson_eq_float_iff l.number l.number
    simp only [true_and] at hiff
    rw [← hiff]
    simp [eq_comm]

end NumberLiteral

namespace Text

/-- No two neighbours are the halves of a surrogate pair. -/
def IsJoined : Text → Prop
  | c :: d :: rest => ¬ (c.isHighSurrogate ∧ d.isLowSurrogate) ∧ IsJoined (d :: rest)
  | _ => True

instance : DecidablePred IsJoined
  | [] => inferInstanceAs (Decidable True)
  | [_] => inferInstanceAs (Decidable True)
  | _ :: d :: rest =>
    have := instDecidablePredIsJoined (d :: rest)
    inferInstanceAs (Decidable (_ ∧ _))

theorem IsJoined.tail {c : CodePoint} {rest : Text} (h : IsJoined (c :: rest)) : rest.IsJoined := by
  cases rest with
  | nil => trivial
  | cons d rest => exact h.2

theorem units_cons (c : CodePoint) (rest : Text) : units (c :: rest) = c.units ++ units rest := rfl

/-- After a high surrogate that stands alone there is no low one. -/
theorem head?_units_of_high {c : CodePoint} {rest : Text} (h : IsJoined (c :: rest))
    (hc : c.isHighSurrogate) {u : Nat} (hu : (units rest).head? = some u) :
    ¬ (0xDC00 ≤ u ∧ u < 0xE000) := by
  cases rest with
  | nil => cases hu
  | cons d rest =>
    have hd : ¬ d.isLowSurrogate := fun hd => h.1 ⟨hc, hd⟩
    simp only [CodePoint.isLowSurrogate, Bool.and_eq_true, decide_eq_true_eq] at hd
    have hlt := d.isLt
    rw [units_cons, CodePoint.units] at hu
    split at hu
    · cases hu
      exact hd
    · cases hu
      omega

/-- A text with its pairs joined is known by its code units. -/
theorem units_inj {s t : Text} (hs : s.IsJoined) (ht : t.IsJoined) (h : s.units = t.units) :
    s = t := by
  induction s generalizing t with
  | nil =>
    cases t with
    | nil => rfl
    | cons d rest =>
      rw [units_cons, CodePoint.units] at h
      split at h <;> cases h
  | cons c rest ih =>
    cases t with
    | nil =>
      rw [units_cons, CodePoint.units] at h
      split at h <;> cases h
    | cons d rest' =>
      have hclt := c.isLt
      have hdlt := d.isLt
      have hhigh (p : CodePoint) (n : Nat) (hp : p.val = 0xD800 + (n - 0x10000) / 0x400)
          (hn : n < 0x110000) (hn' : ¬ n < 0x10000) : p.isHighSurrogate := by
        simp only [CodePoint.isHighSurrogate, Bool.and_eq_true, decide_eq_true_eq]
        omega
      rw [units_cons, units_cons, CodePoint.units, CodePoint.units] at h
      split at h
      · rename_i hc
        split at h
        · rename_i hd
          obtain ⟨hcd, h⟩ := List.cons.inj h
          rw [Fin.ext hcd, ih hs.tail ht.tail h]
        · rename_i hd
          obtain ⟨hcd, h⟩ := List.cons.inj h
          refine absurd ?_ (head?_units_of_high hs (hhigh c d.val hcd hdlt hd)
            (by rw [show units rest = _ from h]; rfl))
          omega
      · rename_i hc
        split at h
        · rename_i hd
          obtain ⟨hcd, h⟩ := List.cons.inj h
          refine absurd ?_ (head?_units_of_high ht (hhigh d c.val hcd.symm hclt hc)
            (by rw [show units rest' = _ from h.symm]; rfl))
          omega
        · rename_i hd
          obtain ⟨hfirst, h⟩ := List.cons.inj h
          obtain ⟨hsecond, h⟩ := List.cons.inj h
          have hcd : c = d := Fin.ext (by omega)
          rw [hcd, ih hs.tail ht.tail h]

end Text

namespace StringLiteral

def built (l : StringLiteral) : Text := l.items.flatMap StringItem.read

/-- The literals whose value is built as ESTree has it: every escape sequence keeps its meaning, and
none gives half of a pair whose other half is next to it. -/
def Kept (l : StringLiteral) : Prop := (∀ e, .escape e ∈ l.items → e.Kept) ∧ l.built.IsJoined

/-- A text is the value of the literal in ESTree. -/
structure Denotes (l : StringLiteral) (value : Text) : Prop where
  units : value.units = l.units
  isJoined : value.IsJoined

theorem Denotes.built_eq_iff {l : StringLiteral} {value : Text} (h : l.Denotes value) :
    l.built = value ↔ l.Kept := by
  constructor
  · rintro rfl
    exact ⟨l.units_read_eq_iff.mp h.units, h.isJoined⟩
  · rintro ⟨hkept, hjoined⟩
    refine Text.units_inj hjoined h.isJoined ?_
    rw [h.units]
    exact l.units_read_eq_iff.mpr hkept

end StringLiteral

/-- A character of a name as it is written: itself, or an escape sequence of four digits or of any
number of them in braces. -/
inductive NameItem where
  | plain (c : Char)
  | unit (a b c d : WrittenDigit 16)
  | point (first : WrittenDigit 16) (more : List (WrittenDigit 16))

namespace NameItem

def chars : NameItem → List Char
  | plain c => [c]
  | unit a b c d => '\\' :: 'u' :: [a, b, c, d].map WrittenDigit.char
  | point first more => '\\' :: 'u' :: '\x7b' :: (first :: more).map WrittenDigit.char ++ ['\x7d']

def char : NameItem → Char
  | plain c => c
  | unit a b c d => .ofNat (WrittenDigit.positional [a, b, c, d])
  | point first more => .ofNat (WrittenDigit.positional (first :: more))

def isPlain : NameItem → Bool
  | plain _ => true
  | _ => false

/-- Only a plain character is written as itself. -/
theorem chars_eq_iff (i : NameItem) : i.chars = [i.char] ↔ i.isPlain := by
  cases i <;> simp [chars, char, isPlain]

end NameItem

structure WrittenName where
  items : List NameItem

namespace WrittenName

def spelling (l : WrittenName) : String := String.ofList (l.items.flatMap NameItem.chars)

def name (l : WrittenName) : String := String.ofList (l.items.map NameItem.char)

/-- The names that are written without escape sequences. -/
def Kept (l : WrittenName) : Prop := ∀ i ∈ l.items, i.isPlain

theorem spelling_eq_iff (l : WrittenName) : l.spelling = l.name ↔ l.Kept := by
  have hlength : ∀ i ∈ l.items, [i.char].length ≤ i.chars.length := by
    intro i _
    cases i <;> simp [NameItem.chars]
  rw [spelling, name, String.ofList_inj, List.map_eq_flatMap, flatMap_eq_flatMap_iff hlength, Kept]
  exact forall₂_congr fun i _ => i.chars_eq_iff

end WrittenName

/-- A token whose value is written in another way than it is spelled. -/
inductive ValuedToken where
  | number (l : NumericLiteral)
  | string (l : StringLiteral)
  | name (l : WrittenName)

/-- The tokens that are built with the value that they have in ESTree. -/
def ValuedToken.Kept : ValuedToken → Prop
  | number l => l.Kept
  | string l => l.Kept
  | name l => l.Kept

end Sil
