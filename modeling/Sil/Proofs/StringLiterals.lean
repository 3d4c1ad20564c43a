import Mathlib
import Sil.SourceText.Lexical
import Sil.Proofs.IntegerLiterals
import Sil.Proofs.SourceSpans

/-!
String literals and their value in JavaScript, which is a sequence of UTF-16 code units. A literal
is a sequence of characters and escape sequences between quotes. The value that is built has the
right units exactly if no octal escape but `\0` occurs in it, and no backslash before a line or
paragraph separator: these two are read as the characters after the backslash.
-/
namespace Sil

/-- The code units of a code point in UTF-16. A surrogate stands for itself. -/
def CodePoint.units (c : CodePoint) : List Nat :=
  if c.val < 0x10000 then [c.val]
  else [0xD800 + (c.val - 0x10000) / 0x400, 0xDC00 + (c.val - 0x10000) % 0x400]

def Text.units (t : Text) : List Nat := t.flatMap CodePoint.units

inductive LineBreak where
  | feed
  | returnFeed
  | returnOnly
  | lineSeparator
  | paragraphSeparator
  deriving DecidableEq

def LineBreak.chars : LineBreak → List Char
  | feed => ['\n']
  | returnFeed => ['\r', '\n']
  | returnOnly => ['\r']
  | lineSeparator => ['\u2028']
  | paragraphSeparator => ['\u2029']

/-- A character that makes an escape sequence with the backslash before it and nothing else. -/
def IsSingle (c : Char) : Prop :=
  c ∉ ['x', 'u', '0', '1', '2', '3', '4', '5', '6', '7', '\n', '\r', '\u2028', '\u2029']

instance (c : Char) : Decidable (IsSingle c) := inferInstanceAs (Decidable (¬ _))

/-- The escape sequences of a string. A separator after a question mark or a carriage return is a
character of its own, but it is taken up by the sequence. -/
inductive EscapeForm where
  | single (c : Char) (isSingle : IsSingle c)
  | octal (first : WrittenDigit 8) (more : List (WrittenDigit 8)) (short : more.length ≤ 2)
  | byte (a b : WrittenDigit 16)
  | unit (a b c d : WrittenDigit 16)
  | point (first : WrittenDigit 16) (more : List (WrittenDigit 16))
      (inRange : WrittenDigit.positional (first :: more) < 0x110000)
  | lineBreak (b : LineBreak)
  | joined (isReturn isParagraph : Bool)

namespace EscapeForm

def chars : EscapeForm → List Char
  | single c _ => ['\\', c]
  | octal first more _ => '\\' :: (first :: more).map WrittenDigit.char
  | byte a b => '\\' :: 'x' :: [a, b].map WrittenDigit.char
  | unit a b c d => '\\' :: 'u' :: [a, b, c, d].map WrittenDigit.char
  | point first more _ => '\\' :: 'u' :: '\x7b' :: (first :: more).map WrittenDigit.char ++ ['\x7d']
  | lineBreak b => '\\' :: b.chars
  | joined isReturn isParagraph =>
    ['\\', if isReturn then '\r' else '?', if isParagraph then '\u2029' else '\u2028']

/-- What a character stands for after a backslash. -/
def singlePoint (c : Char) : CodePoint :=
  match c with
  | 'b' => 0x08
  | 't' => 0x09
  | 'n' => 0x0A
  | 'v' => 0x0B
  | 'f' => 0x0C
  | 'r' => 0x0D
  | c => .ofChar c

/-- The units of an octal escape. It ends at one byte, so that a third digit after four or more is a
character of its own. -/
def octalUnits : List Nat → List Nat
  | [a] => [a]
  | [a, b] => [a * 8 + b]
  | [a, b, c] => if a < 4 then [(a * 8 + b) * 8 + c] else [a * 8 + b, 0x30 + c]
  | _ => []

def units : EscapeForm → List Nat
  | single c _ => (singlePoint c).units
  | octal first more _ => octalUnits ((first :: more).map fun d => d.value.val)
  | byte a b => [WrittenDigit.positional [a, b]]
  | unit a b c d => [WrittenDigit.positional [a, b, c, d]]
  | point first more inRange => CodePoint.units ⟨WrittenDigit.positional (first :: more), inRange⟩
  | lineBreak _ => []
  | joined isReturn isParagraph =>
    (if isReturn then [] else [0x3F]) ++ [if isParagraph then 0x2029 else 0x2028]

def read : EscapeForm → Text
  | single c _ => [singlePoint c]
  | octal first more _ =>
    if first.value.val = 0 ∧ more = [] then [0] else (first :: more).map fun d => .ofChar d.char
  | byte a b => [.ofNat (WrittenDigit.positional [a, b])]
  | unit a b c d => [.ofNat (WrittenDigit.positional [a, b, c, d])]
  | point first more inRange => [⟨WrittenDigit.positional (first :: more), inRange⟩]
  | lineBreak .lineSeparator => [0x2028]
  | lineBreak .paragraphSeparator => [0x2029]
  | lineBreak _ => []
  | joined isReturn isParagraph =>
    (if isReturn then [] else [0x3F]) ++ [if isParagraph then 0x2029 else 0x2028]

/-- The escape sequences that keep their meaning. -/
def Kept : EscapeForm → Prop
  | octal first more _ => first.value.val = 0 ∧ more = []
  | lineBreak b => b ≠ .lineSeparator ∧ b ≠ .paragraphSeparator
  | _ => True

/-- The sequence does not go on with the next character. Of up to three octal digits all belong to
it, and a question mark or a carriage return takes up the end of a line. -/
def EndsBefore (next : Char) : EscapeForm → Prop
  | single c _ => c = '?' → SourceText.isLineEnd next = false
  | octal _ more _ => more.length = 2 ∨ Numeral.digit? 8 next = none
  | lineBreak .returnOnly => SourceText.isLineEnd next = false
  | _ => True

instance : DecidablePred Kept
  | single .. => inferInstanceAs (Decidable True)
  | octal .. => inferInstanceAs (Decidable (_ ∧ _))
  | byte .. => inferInstanceAs (Decidable True)
  | unit .. => inferInstanceAs (Decidable True)
  | point .. => inferInstanceAs (Decidable True)
  | lineBreak _ => inferInstanceAs (Decidable (_ ∧ _))
  | joined .. => inferInstanceAs (Decidable True)

end EscapeForm

section Decoding

open Escape

/-- Looking up a text is looking up its characters. -/
theorem lookup_ofList (table : List (String × Nat)) (cs : List Char) :
    table.lookup (String.ofList cs) = (table.map fun p => (p.1.toList, p.2)).lookup cs := by
  induction table with
  | nil => rfl
  | cons p table ih =>
    have hkey : (String.ofList cs == p.1) = (cs == p.1.toList) := by
      rw [Bool.eq_iff_iff, beq_iff_eq, beq_iff_eq, ← String.toList_inj, String.toList_ofList]
    rw [List.map_cons, List.lookup_cons, List.lookup_cons, ih, hkey]

def simpleEscapes : List (List Char × Nat) :=
  [(['\\', 'n'], 0x0A), (['\\', 't'], 0x09), (['\\', 'r'], 0x0D), (['\\', 'b'], 0x08),
    (['\\', 'f'], 0x0C), (['\\', 'v'], 0x0B), (['\\', '0'], 0x00), (['\\', '\x27'], 0x27),
    (['\\', '"'], 0x22), (['\\', '\\'], 0x5C)]

theorem lookup_simple (cs : List Char) :
    simple.lookup (String.ofList cs) = simpleEscapes.lookup cs := by
  rw [lookup_ofList]
  rfl

theorem lookup_simple_long (c d e : Char) (rest : List Char) :
    simple.lookup (String.ofList (c :: d :: e :: rest)) = none := by
  rw [lookup_simple]
  simp [simpleEscapes]

/-- What is in no table stands for itself after the backslash. -/
theorem decode_verbatim {c : Char} {rest : List Char}
    (hlookup : simple.lookup (String.ofList ('\\' :: c :: rest)) = none)
    (hc : c ≠ 'u' ∧ c ≠ 'x' ∧ c ≠ '\r' ∧ c ≠ '\n') :
    decode (String.ofList ('\\' :: c :: rest)) = .ok ((c :: rest).map .ofChar) := by
  rw [decode, hlookup, String.toList_ofList]
  simp [hc]

theorem decode_single {c : Char} (h : IsSingle c) :
    decode (String.ofList ['\\', c]) = .ok [EscapeForm.singlePoint c] := by
  by_cases hsimple : c ∈ ['n', 't', 'r', 'b', 'f', 'v', '\x27', '"', '\\']
  · fin_cases hsimple <;> rfl
  · simp only [IsSingle, List.mem_cons, List.mem_nil_iff, or_false, not_or] at h hsimple
    have hlookup : simple.lookup (String.ofList ['\\', c]) = none := by
      rw [lookup_simple]
      simp [simpleEscapes, h, hsimple]
    have hpoint : EscapeForm.singlePoint c = .ofChar c := by simp [EscapeForm.singlePoint, hsimple]
    rw [hpoint]
    exact decode_verbatim hlookup (by simp [h])

/-- The bytes of ASCII characters are their numbers. -/
theorem toUTF8_ascii {cs : List Char} (h : ∀ c ∈ cs, c.toNat < 0x80) :
    (String.ofList cs).toUTF8.toList = cs.map fun c => UInt8.ofNat c.toNat := by
  have hbytes : (String.ofList cs).toUTF8.toList = cs.flatMap String.utf8EncodeChar := by
    simp [Text.toList_byteArray, String.toUTF8_eq_toByteArray, List.utf8Encode]
  rw [hbytes, List.map_eq_flatMap]
  refine List.flatMap_congr fun c hc => ?_
  have hc : c.val.toNat ≤ 0x7F := Nat.le_of_lt_succ (h c hc)
  simp only [String.utf8EncodeChar, if_pos hc]
  rfl

theorem positional_lt {base : Nat} (hbase : 1 < base) (ds : List (WrittenDigit base)) :
    WrittenDigit.positional ds < base ^ ds.length := by
  have hlt := Nat.ofDigits_lt_base_pow_length hbase (l := (ds.map fun d => d.value.val).reverse)
      (by simp)
  simpa [WrittenDigit.positional] using hlt

theorem byteHex?_char (d : WrittenDigit 16) :
    byteHex? (UInt8.ofNat d.char.toNat) = some d.value.val := by
  have hplain := Numeral.isPlain_char (le_refl 16) d
  have hbyte : (UInt8.ofNat d.char.toNat).toNat = d.char.toNat :=
    Text.byte_toNat (hplain.2.trans (by decide))
  rw [byteHex?, hbyte, Char.ofNat_toNat, Numeral.digit?_char_self (le_refl 16)]

/-- A given number of hexadecimal digits is a code point. -/
theorem fixedWidth_digits {ds : List (WrittenDigit 16)} (h : WrittenDigit.positional ds < 0x110000)
    (start : Nat) (form : String) :
    fixedWidth start ds.length form (ds.map fun d => UInt8.ofNat d.char.toNat) =
      .ok (.ofNat (WrittenDigit.positional ds)) := by
  have htake : ((ds.map fun d => UInt8.ofNat d.char.toNat).take ds.length).takeWhile
      (fun b => (byteHex? b).isSome) = ds.map fun d => UInt8.ofNat d.char.toNat := by
    rw [List.take_of_length_le (by simp), List.takeWhile_eq_self_iff]
    intro b hb
    obtain ⟨d, -, rfl⟩ := List.mem_map.mp hb
    rw [byteHex?_char, Option.isSome_some]
  have hvalues : (ds.map fun d => UInt8.ofNat d.char.toNat).filterMap byteHex? =
      ds.map fun d => d.value.val := by
    rw [List.filterMap_map, ← List.filterMap_eq_map]
    exact List.filterMap_congr fun d _ => byteHex?_char d
  have hpoint : CodePoint.ofNat? (WrittenDigit.positional ds) =
      some (.ofNat (WrittenDigit.positional ds)) := by
    rw [CodePoint.ofNat?, dif_pos h]
    simp [CodePoint.ofNat, Nat.mod_eq_of_lt h]
  rw [fixedWidth, htake]
  simp only [List.length_map, Nat.lt_irrefl, if_false, hvalues, Numeral.positionalValue_eq_ofDigits]
  rw [show Nat.ofDigits 16 _ = WrittenDigit.positional ds from rfl, hpoint]

/-- Bytes that belong to an escape already read stand for nothing. -/
theorem decodeBytes_skip (bytes : List UInt8) (position : Nat) :
    decodeBytes position bytes.length bytes = .ok [] := by
  induction bytes generalizing position with
  | nil => rfl
  | cons b rest ih => exact ih (position + 1)

/-- An escape of a letter and a given number of hexadecimal digits. -/
theorem decodeBytes_fixedWidth {ds : List (WrittenDigit 16)}
    (h : WrittenDigit.positional ds < 0x110000) {letter : UInt8} {form : String}
    (hletter : ∀ rest, general 0 (letter :: rest) = do
      return ([← fixedWidth 0 ds.length form rest], ds.length + 1)) :
    decodeBytes 0 0 (0x5C :: letter :: ds.map fun d => UInt8.ofNat d.char.toNat) =
      .ok [.ofNat (WrittenDigit.positional ds)] := by
  have hskip := decodeBytes_skip (letter :: ds.map fun d => UInt8.ofNat d.char.toNat) (0 + 1)
  rw [List.length_cons, List.length_map] at hskip
  rw [decodeBytes, if_pos rfl, hletter, fixedWidth_digits h, ok_bind]
  show (decodeBytes (0 + 1) (ds.length + 1) _ >>= _) = _
  rw [hskip]
  rfl

theorem isAscii_char (d : WrittenDigit 16) :
    d.char.toNat < 0x80 := (Numeral.isPlain_char (le_refl 16) d).2

theorem decode_byte (a b : WrittenDigit 16) :
    decode (String.ofList (EscapeForm.byte a b).chars) = .ok (EscapeForm.byte a b).read := by
  have hlt : WrittenDigit.positional [a, b] < 0x110000 :=
    (positional_lt (by decide) [a, b]).trans (by simp)
  have hascii : ∀ c ∈ (EscapeForm.byte a b).chars, c.toNat < 0x80 := by
    simp [EscapeForm.chars, isAscii_char]
  have hlookup : simple.lookup (String.ofList (EscapeForm.byte a b).chars) = none :=
    lookup_simple_long ..
  have hdecode : decode (String.ofList (EscapeForm.byte a b).chars) =
      decodeBytes 0 0 (String.ofList (EscapeForm.byte a b).chars).toUTF8.toList := by
    rw [decode, hlookup, String.toList_ofList]
    rfl
  rw [hdecode, toUTF8_ascii hascii]
  exact decodeBytes_fixedWidth hlt fun rest => rfl

theorem decode_unit (a b c d : WrittenDigit 16) :
    decode (String.ofList (EscapeForm.unit a b c d).chars) =
      .ok (EscapeForm.unit a b c d).read := by
  have hlt : WrittenDigit.positional [a, b, c, d] < 0x110000 :=
    (positional_lt (by decide) [a, b, c, d]).trans (by simp)
  have hascii : ∀ e ∈ (EscapeForm.unit a b c d).chars, e.toNat < 0x80 := by
    simp [EscapeForm.chars, isAscii_char]
  have hlookup : simple.lookup (String.ofList (EscapeForm.unit a b c d).chars) = none :=
    lookup_simple_long ..
  have hbrace : a.char ≠ '\x7b' := Numeral.char_ne (le_refl 16) rfl a
  have hdecode : decode (String.ofList (EscapeForm.unit a b c d).chars) =
      decodeBytes 0 0 (String.ofList (EscapeForm.unit a b c d).chars).toUTF8.toList := by
    rw [decode, hlookup, String.toList_ofList]
    simp [EscapeForm.chars, hbrace]
  rw [hdecode, toUTF8_ascii hascii]
  exact decodeBytes_fixedWidth hlt fun rest => rfl

/-- The letter of a base mark is no hexadecimal digit, so all the digits count. -/
theorem splitBase_hexadecimal (ds : List (WrittenDigit 16)) :
    Numeral.splitBase (some 16) (ds.map WrittenDigit.char) =
      (16, ds.map WrittenDigit.char, false) := by
  have hmark (d : WrittenDigit 16) : Numeral.markedBase? d.char ≠ some 16 := by
    intro h
    unfold Numeral.markedBase? at h
    split at h <;> cases h
    · exact Numeral.char_ne (le_refl 16) rfl d ‹_›
    · exact Numeral.char_ne (le_refl 16) rfl d ‹_›
  unfold Numeral.splitBase
  split
  · rename_i b c rest heq hcs
    cases heq
    obtain ⟨d, -, hd⟩ : ∃ d ∈ ds, d.char = c := by
      rw [← List.mem_map, hcs]
      simp
    rw [if_neg (hd ▸ hmark d)]
  · rename_i heq _
    cases heq
    rfl
  · rename_i heq _
    cases heq
  · rename_i heq _
    cases heq

theorem point_natCast {n : Nat} (h : n < 0x110000) : point n = .ok ⟨n, h⟩ := by
  have hsmall : ¬ ((n : Int) < -2147483648 || 2147483648 ≤ (n : Int)) = true := by simp; omega
  rw [point, if_neg hsmall, if_neg (Int.not_lt.mpr (Int.natCast_nonneg n)), Int.toNat_natCast,
    CodePoint.ofNat?, dif_pos h]

/-- A code point in braces may have any number of digits. -/
theorem decode_point {first : WrittenDigit 16} {more : List (WrittenDigit 16)}
    (inRange : WrittenDigit.positional (first :: more) < 0x110000) :
    decode (String.ofList (EscapeForm.point first more inRange).chars) =
      .ok (EscapeForm.point first more inRange).read := by
  have hlookup : simple.lookup (String.ofList (EscapeForm.point first more inRange).chars) = none :=
    lookup_simple_long ..
  have hplain : ∀ c ∈ (first :: more).map WrittenDigit.char, Text.IsPlain c := by
    intro c hc
    obtain ⟨d, -, rfl⟩ := List.mem_map.mp hc
    exact Numeral.isPlain_char (le_refl 16) d
  have hread := Numeral.readInt_digits (le_refl 16) (List.cons_ne_nil first more) hplain
    (splitBase_hexadecimal _) (.inl rfl)
  have hbraced : decode (String.ofList (EscapeForm.point first more inRange).chars) =
      braced ((first :: more).map WrittenDigit.char ++ ['\x7d']).dropLast := by
    rw [decode, hlookup, String.toList_ofList]
    rfl
  rw [hbraced, List.dropLast_concat, braced, hread]
  simp only [point_natCast inRange, ok_bind]
  rfl

/-- An octal escape is read as its digits, but for a zero alone. -/
theorem decode_octal {first : WrittenDigit 8} {more : List (WrittenDigit 8)}
    (short : more.length ≤ 2) :
    decode (String.ofList (EscapeForm.octal first more short).chars) =
      .ok (EscapeForm.octal first more short).read := by
  have hne {c : Char} (hc : Numeral.digit? 16 c = none) : first.char ≠ c :=
    Numeral.char_ne (by decide) hc first
  have hzero := Numeral.char_eq_zero (by decide) first
  have hverbatim
      (hlookup : simple.lookup (String.ofList (EscapeForm.octal first more short).chars) = none) :
      decode (String.ofList (EscapeForm.octal first more short).chars) =
        .ok ((first :: more).map fun d => .ofChar d.char) := by
    rw [EscapeForm.chars, List.map_cons] at hlookup ⊢
    rw [decode_verbatim hlookup ⟨hne rfl, hne rfl, hne rfl, hne rfl⟩]
    simp
  cases more with
  | nil =>
    by_cases h : first.value.val = 0
    · simp only [EscapeForm.chars, EscapeForm.read, List.map_cons, hzero.mpr h, h]
      rfl
    · have hall : ∀ (v : Fin 8) (capital : Bool), v.val ≠ 0 → simpleEscapes.lookup
          ['\\', if capital then (Nat.digitChar v).toUpper else Nat.digitChar v] = none := by decide
      rw [EscapeForm.read, if_neg (by simp [h])]
      refine hverbatim ?_
      rw [lookup_simple]
      exact hall first.value first.capital h
  | cons second more =>
    rw [EscapeForm.read, if_neg (by simp)]
    exact hverbatim (lookup_simple_long ..)

theorem decode_lineBreak (b : LineBreak) :
    decode (String.ofList (EscapeForm.lineBreak b).chars) = .ok (EscapeForm.lineBreak b).read := by
  cases b <;> rfl

theorem decode_joined (isReturn isParagraph : Bool) :
    decode (String.ofList (EscapeForm.joined isReturn isParagraph).chars) =
      .ok (EscapeForm.joined isReturn isParagraph).read := by
  cases isReturn <;> cases isParagraph <;> rfl

/-- An escape sequence in a string is decoded to what `EscapeForm.read` says. -/
theorem decode_chars (e : EscapeForm) : decode (String.ofList e.chars) = .ok e.read := by
  cases e with
  | single c isSingle => exact decode_single isSingle
  | octal first more short => exact decode_octal short
  | byte a b => exact decode_byte a b
  | unit a b c d => exact decode_unit a b c d
  | point first more inRange => exact decode_point inRange
  | lineBreak b => exact decode_lineBreak b
  | joined isReturn isParagraph => exact decode_joined isReturn isParagraph

end Decoding

namespace CodePoint

theorem units_of_lt {n : Nat} (h : n < 0x10000) : (ofNat n).units = [n] := by
  have hval : (ofNat n).val = n := Nat.mod_eq_of_lt (h.trans (by decide))
  rw [units, hval, if_pos h]

theorem units_ofChar_digit {base : Nat} (hbase : base ≤ 8) (d : WrittenDigit base) :
    (ofChar d.char).units = [0x30 + d.value.val] := by
  have hval : (ofChar d.char).val = 0x30 + d.value.val := by
    have hlt := d.value.isLt
    rcases Numeral.toNat_char (by omega : base ≤ 16) d with ⟨-, hn⟩ | ⟨hv, -⟩
    · exact hn
    · omega
  have hlt := d.value.isLt
  rw [units, hval, if_pos (by omega)]

end CodePoint

namespace EscapeForm

/-- Digits have one unit each, of which an octal escape makes fewer, or another one. -/
theorem octalUnits_digits {ds : List (WrittenDigit 8)} (hsome : ds ≠ []) (hshort : ds.length ≤ 3) :
    (octalUnits (ds.map fun d => d.value.val)).length ≤ ds.length ∧
      (octalUnits (ds.map fun d => d.value.val) ≠ ds.map fun d => 0x30 + d.value.val) := by
  obtain - | ⟨a, - | ⟨b, - | ⟨c, - | ⟨d, rest⟩⟩⟩⟩ := ds
  · exact absurd rfl hsome
  · simp [octalUnits]
  · simp [octalUnits]
  · simp only [octalUnits, List.map_cons, List.map_nil]
    split <;> simp
  · simp only [List.length_cons] at hshort
    omega

theorem units_read_octal {first : WrittenDigit 8} {more : List (WrittenDigit 8)}
    (short : more.length ≤ 2) (h : ¬ (first.value.val = 0 ∧ more = [])) :
    (octal first more short).read.units = (first :: more).map fun d => 0x30 + d.value.val := by
  rw [read, if_neg h, Text.units, List.flatMap_map, List.map_eq_flatMap]
  exact List.flatMap_congr fun d _ => CodePoint.units_ofChar_digit (le_refl 8) d

theorem units_read_byte (a b : WrittenDigit 16) : (byte a b).read.units = (byte a b).units := by
  have hlt := positional_lt (by decide) [a, b]
  rw [read, Text.units, List.flatMap_singleton, CodePoint.units_of_lt (hlt.trans (by simp))]
  rfl

theorem units_read_unit (a b c d : WrittenDigit 16) :
    (unit a b c d).read.units = (unit a b c d).units := by
  have hlt := positional_lt (by decide) [a, b, c, d]
  rw [read, Text.units, List.flatMap_singleton, CodePoint.units_of_lt (hlt.trans_le (by simp))]
  rfl

theorem units_read_joined (isReturn isParagraph : Bool) :
    (joined isReturn isParagraph).read.units = (joined isReturn isParagraph).units := by
  cases isReturn <;> cases isParagraph <;> rfl

/-- What is read for an escape sequence has no fewer units than it stands for. -/
theorem length_units_le (e : EscapeForm) : e.units.length ≤ e.read.units.length := by
  cases e with
  | octal first more short =>
    by_cases h : first.value.val = 0 ∧ more = []
    · obtain ⟨h, rfl⟩ := h
      simp [units, read, octalUnits, h, Text.units, CodePoint.units]
    · rw [units_read_octal short h, List.length_map]
      exact (octalUnits_digits (List.cons_ne_nil first more) (Nat.succ_le_succ short)).1
  | lineBreak b => exact Nat.zero_le _
  | single c isSingle => simp [units, read, Text.units]
  | byte a b => rw [units_read_byte]
  | unit a b c d => rw [units_read_unit]
  | joined isReturn isParagraph => rw [units_read_joined]
  | point first more inRange => simp [units, read, Text.units]

/-- The units are right for the sequences that are kept and for no others. -/
theorem units_read_eq_iff (e : EscapeForm) : e.read.units = e.units ↔ e.Kept := by
  cases e with
  | octal first more short =>
    by_cases h : first.value.val = 0 ∧ more = []
    · refine iff_of_true ?_ h
      obtain ⟨h, rfl⟩ := h
      simp [units, read, octalUnits, h, Text.units, CodePoint.units]
    · refine iff_of_false ?_ h
      rw [units_read_octal short h]
      exact (octalUnits_digits (List.cons_ne_nil first more) (Nat.succ_le_succ short)).2.symm
  | lineBreak b => cases b <;> simp [read, units, Kept, Text.units, CodePoint.units]
  | single c isSingle => simp [units, read, Text.units, Kept]
  | byte a b => exact iff_of_true (units_read_byte a b) trivial
  | unit a b c d => exact iff_of_true (units_read_unit a b c d) trivial
  | joined isReturn isParagraph =>
    exact iff_of_true (units_read_joined isReturn isParagraph) trivial
  | point first more inRange => simp [units, read, Text.units, Kept]

end EscapeForm

inductive StringItem where
  | plain (c : Char)
  | escape (e : EscapeForm)

namespace StringItem

def chars : StringItem → List Char
  | plain c => [c]
  | escape e => e.chars

def units : StringItem → List Nat
  | plain c => (CodePoint.ofChar c).units
  | escape e => e.units

def read : StringItem → Text
  | plain c => [.ofChar c]
  | escape e => e.read

/-- Characters with a meaning of their own only stand in escape sequences, and these end where they
can. -/
def Admitted (quote : Char) : List StringItem → Prop
  | [] => True
  | plain c :: rest => c ∉ [quote, '\\', '\n', '\r'] ∧ Admitted quote rest
  | escape e :: rest => e.EndsBefore ((rest.flatMap chars).headD quote) ∧ Admitted quote rest

/-- The units of an item are right if it is no escape sequence that loses its meaning. -/
theorem units_read_eq_iff (i : StringItem) :
    i.read.units = i.units ↔ ∀ e, i = escape e → e.Kept := by
  cases i with
  | plain c => simp [read, units, Text.units]
  | escape e => simp [read, units, e.units_read_eq_iff]

theorem length_units_le (i : StringItem) : i.units.length ≤ i.read.units.length := by
  cases i with
  | plain c => simp [read, units, Text.units]
  | escape e => exact e.length_units_le

end StringItem

structure StringLiteral where
  quote : Char
  isQuote : quote = '"' ∨ quote = '\x27'
  items : List StringItem
  admitted : StringItem.Admitted quote items

namespace StringLiteral

def chars (l : StringLiteral) : List Char :=
  l.quote :: l.items.flatMap StringItem.chars ++ [l.quote]

def spelling (l : StringLiteral) : String := String.ofList l.chars

def units (l : StringLiteral) : List Nat := l.items.flatMap StringItem.units

end StringLiteral

namespace Concrete

/-- A part of a string holds one escape sequence if it is of their kind, else only characters. -/
def IsPart (source : ByteArray) (part : ConcreteTree) (items : List StringItem) : Prop :=
  text source part = .ok (String.ofList (items.flatMap StringItem.chars)) ∧
    if part.kind = "escape_sequence" then ∃ e, items = [.escape e]
    else ∃ cs : List Char, items = cs.map .plain

/-- A node is that of a string literal if its parts hold the items of the literal in their order. -/
def IsString (source : ByteArray) (t : ConcreteTree) (l : StringLiteral) : Prop :=
  t.kind = "string" ∧ text source t = .ok l.spelling ∧
    ∃ groups : List (List StringItem), groups.flatten = l.items ∧
      List.Forall₂ (IsPart source) t.namedChildren groups

variable {source : ByteArray}

/-- The value of a string is what is read for its items, one after the other. -/
theorem stringValue_eq {parts : List ConcreteTree} {groups : List (List StringItem)}
    (h : List.Forall₂ (IsPart source) parts groups) :
    stringValue source parts = .ok (groups.flatten.flatMap StringItem.read) := by
  induction h with
  | nil => rfl
  | @cons part items parts groups hpart _ ih =>
    obtain ⟨htext, hitems⟩ := hpart
    rw [stringValue, htext, orFault, ok_bind, List.flatten_cons, List.flatMap_append]
    split at hitems
    · rename_i hkind
      obtain ⟨e, rfl⟩ := hitems
      rw [if_pos hkind, List.flatMap_singleton, StringItem.chars, decode_chars, orFault, ok_bind,
        ih, List.flatMap_singleton]
      rfl
    · rename_i hkind
      obtain ⟨cs, rfl⟩ := hitems
      have hchars : (cs.map StringItem.plain).flatMap StringItem.chars = cs := by
        simp [List.flatMap_map, StringItem.chars]
      have hread : (cs.map StringItem.plain).flatMap StringItem.read = cs.map .ofChar := by
        rw [List.flatMap_map, List.map_eq_flatMap]
        rfl
      rw [if_neg hkind, hchars, hread, ih, Text.ofString, String.toList_ofList]
      rfl

theorem nodeWith_string {build : ConcreteTree → Except Error Node} {t : ConcreteTree} {value : Text}
    {raw : String} (hkind : t.kind = "string")
    (hvalue : stringValue source t.namedChildren = .ok value) (htext : text source t = .ok raw) :
    nodeWith build source t = .ok (.literal (some t.location) (.str value) raw) := by
  simp [nodeWith, hkind, hvalue, htext, orFault, ok_bind]

end Concrete

/-- Two texts of the same pieces, of which the second are never longer, are the same piece by
piece. -/
theorem flatMap_eq_flatMap_iff {α β : Type} {f g : α → List β} {as : List α}
    (h : ∀ a ∈ as, (g a).length ≤ (f a).length) :
    as.flatMap f = as.flatMap g ↔ ∀ a ∈ as, f a = g a := by
  refine ⟨fun heq => ?_, fun heq => List.flatMap_congr heq⟩
  induction as with
  | nil => simp
  | cons a rest ih =>
    rw [List.forall_mem_cons] at h ⊢
    have hrest : (rest.flatMap g).length ≤ (rest.flatMap f).length := by
      rw [List.length_flatMap, List.length_flatMap]
      exact List.sum_le_sum fun b hb => h.2 b hb
    rw [List.flatMap_cons, List.flatMap_cons] at heq
    have hlength := congrArg List.length heq
    rw [List.length_append, List.length_append] at hlength
    obtain ⟨hfirst, heq⟩ := List.append_inj heq (by omega)
    exact ⟨hfirst, ih h.2 heq⟩

/-- What is read for a literal has the right units exactly if every escape sequence is kept. -/
theorem StringLiteral.units_read_eq_iff (l : StringLiteral) :
    Text.units (l.items.flatMap StringItem.read) = l.units ↔ ∀ e, .escape e ∈ l.items → e.Kept := by
  rw [Text.units, List.flatMap_assoc, StringLiteral.units]
  refine (flatMap_eq_flatMap_iff fun i _ => i.length_units_le).trans ?_
  constructor
  · intro hkeeps e he
    exact (StringItem.units_read_eq_iff _).mp (hkeeps _ he) e rfl
  · intro hkeeps i hi
    refine (StringItem.units_read_eq_iff i).mpr fun e he => ?_
    subst he
    exact hkeeps e hi

/-- The node of a string literal holds the literal's spelling and a value whose code units are those
of JavaScript exactly if every escape sequence of the literal is kept. -/
theorem string_value_iff (build : ConcreteTree → Except Error Node) {source : ByteArray}
    {t : ConcreteTree} {l : StringLiteral} (h : Concrete.IsString source t l) :
    ∃ value, Concrete.nodeWith build source t =
        .ok (.literal (some t.location) (.str value) l.spelling) ∧
      (value.units = l.units ↔ ∀ e, .escape e ∈ l.items → e.Kept) := by
  obtain ⟨hkind, htext, groups, hitems, hparts⟩ := h
  have hvalue := Concrete.stringValue_eq hparts
  rw [hitems] at hvalue
  exact ⟨_, Concrete.nodeWith_string hkind hvalue htext, l.units_read_eq_iff⟩

def stringPartTree (kind : String) (start stop : Nat) : ConcreteTree :=
  .node kind ⟨start, stop, 0, start, 0, stop⟩ true none {} []

def stringTree (size : Nat) (parts : List ConcreteTree) : ConcreteTree :=
  .node "string" ⟨0, size, 0, 0, 0, size⟩ true none {} parts

/-- `'é\n\x41\u{1F600}\0z'` -/
def keptString : StringLiteral where
  quote := '\x27'
  isQuote := .inr rfl
  items := [.plain 'é', .escape (.single 'n' (by decide)), .escape (.byte ⟨4, false⟩ ⟨1, false⟩),
    .escape (.point ⟨1, false⟩ [⟨15, true⟩, ⟨6, false⟩, ⟨0, false⟩, ⟨0, false⟩] (by decide)),
    .escape (.octal ⟨0, false⟩ [] (by decide)), .plain 'z']
  admitted := by simp [StringItem.Admitted, EscapeForm.EndsBefore, StringItem.chars]; decide

def keptStringTree : ConcreteTree :=
  stringTree 22 [stringPartTree "string_fragment" 1 3, stringPartTree "escape_sequence" 3 5,
    stringPartTree "escape_sequence" 5 9, stringPartTree "escape_sequence" 9 18,
    stringPartTree "escape_sequence" 18 20, stringPartTree "string_fragment" 20 21]

theorem keptStringTree_isString :
    Concrete.IsString keptString.spelling.toUTF8 keptStringTree keptString := by
  refine ⟨rfl, by cbv, keptString.items.map ([·]), rfl, ?_⟩
  refine .cons ⟨by cbv, ⟨['é'], rfl⟩⟩
    (.cons ⟨by cbv, ⟨_, rfl⟩⟩ (.cons ⟨by cbv, ⟨_, rfl⟩⟩ (.cons ⟨by cbv, ⟨_, rfl⟩⟩
    (.cons ⟨by cbv, ⟨_, rfl⟩⟩ (.cons ⟨by cbv, ⟨['z'], rfl⟩⟩ .nil)))))

theorem keptString_value : Concrete.IsString keptString.spelling.toUTF8 keptStringTree keptString ∧
    (∀ e, .escape e ∈ keptString.items → e.Kept) ∧
    ∃ value, Concrete.node keptString.spelling.toUTF8 1 keptStringTree =
        .ok (.literal (some ⟨1, 0, 1, 22⟩) (.str value) keptString.spelling) ∧
      value.units = [0xE9, 0x0A, 0x41, 0xD83D, 0xDE00, 0x00, 0x7A] := by
  have hkept : ∀ e, .escape e ∈ keptString.items → e.Kept := by
    intro e he
    simp only [keptString, List.mem_cons, StringItem.escape.injEq, reduceCtorEq, false_or, or_false,
      List.mem_nil_iff] at he
    obtain rfl | rfl | rfl | rfl := he <;> decide
  obtain ⟨value, hnode, hvalue⟩ :=
    string_value_iff (Concrete.node keptString.spelling.toUTF8 0) keptStringTree_isString
  exact ⟨keptStringTree_isString, hkept, value, hnode, (hvalue.mpr hkept).trans (by decide)⟩

/-- `'\101'`, the letter `A`. -/
def octalString : StringLiteral where
  quote := '\x27'
  isQuote := .inr rfl
  items := [.escape (.octal ⟨1, false⟩ [⟨0, false⟩, ⟨1, false⟩] (by decide))]
  admitted := by simp [StringItem.Admitted, EscapeForm.EndsBefore]

def octalStringTree : ConcreteTree := stringTree 6 [stringPartTree "escape_sequence" 1 5]

/-- The digits of an octal escape are taken for characters. -/
theorem octalString_value_differs :
    Concrete.IsString octalString.spelling.toUTF8 octalStringTree octalString ∧
    octalString.units = [0x41] ∧
    Concrete.node octalString.spelling.toUTF8 1 octalStringTree =
      .ok (.literal (some ⟨1, 0, 1, 6⟩) (.str (Text.ofString "101")) octalString.spelling) ∧
    Text.units (Text.ofString "101") ≠ octalString.units := by
  have hstring : Concrete.IsString octalString.spelling.toUTF8 octalStringTree octalString :=
    ⟨rfl, by cbv, [octalString.items], rfl, .cons ⟨by cbv, ⟨_, rfl⟩⟩ .nil⟩
  refine ⟨hstring, by decide, ?_, by decide⟩
  obtain ⟨hkind, htext, groups, hitems, hparts⟩ := hstring
  have hvalue := Concrete.stringValue_eq hparts
  rw [hitems] at hvalue
  exact Concrete.nodeWith_string hkind hvalue htext

end Sil
