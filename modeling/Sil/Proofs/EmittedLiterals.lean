import Mathlib
import Sil.Emission.Backend
import Sil.Proofs.SpellingReadBack

/-!
The literals that the `python` backend writes and their value in the target language. Main
statement: `Sil.emitted_literal_value_iff`. A string is quoted with one escape sequence for each
UTF-16 code unit beyond ASCII. The target language makes one code point of each such sequence, so a
code point outside the basic plane becomes two surrogates, and the literal has another value.
-/
namespace Sil

theorem CodePoint.ofNat_val (c : CodePoint) : ofNat c.val = c := Fin.ext (Nat.mod_eq_of_lt c.isLt)

namespace EmittedLiteral

def hex? (width : Nat) (cs : List Char) : Option CodePoint :=
  let digits := (cs.take width).filterMap (Numeral.digit? 16)
  if digits.length = width then CodePoint.ofNat? (Nat.ofDigits 16 digits.reverse) else none

def letters : List (Char × Nat) :=
  [('\\', 0x5C), ('\x27', 0x27), ('"', 0x22), ('a', 0x07), ('b', 0x08), ('f', 0x0C), ('n', 0x0A),
    ('r', 0x0D), ('t', 0x09), ('v', 0x0B)]

/-- What an escape stands for, given the text after its backslash, and how much of this text it
takes. A backslash that starts no escape stands for itself. A character given by its name is not
read. -/
def escape? : List Char → Option (Text × Nat)
  | [] => none
  | '\n' :: _ => some ([], 1)
  | 'x' :: rest => (hex? 2 rest).map fun p => ([p], 3)
  | 'u' :: rest => (hex? 4 rest).map fun p => ([p], 5)
  | 'U' :: rest => (hex? 8 rest).map fun p => ([p], 9)
  | 'N' :: _ => none
  | c :: rest =>
    match letters.lookup c with
    | some n => some ([.ofNat n], 1)
    | none =>
      let digits := ((c :: rest).take 3 |>.takeWhile fun d => (Numeral.digit? 8 d).isSome)
      if digits = [] then some ([.ofNat 0x5C, .ofChar c], 1)
      else some ([.ofNat (Nat.ofDigits 8 (digits.filterMap (Numeral.digit? 8)).reverse)],
        digits.length)

/-- The value of a string after its opening quote. The first `skip` characters belong to an escape
already read. -/
def body? (skip : Nat) : List Char → Option Text
  | [] => none
  | c :: rest =>
    match skip with
    | skip + 1 => body? skip rest
    | 0 =>
      if c = '"' then if rest = [] then some [] else none
      else if c = '\n' || c = '\r' then none
      else if c = '\\' then do
        let (points, taken) ← escape? rest
        return points ++ (← body? taken rest)
      else do return .ofChar c :: (← body? 0 rest)

/-- A decimal integer of at most 4300 digits. Only zero starts with a zero. -/
def natural? (cs : List Char) : Option Nat :=
  if cs ≠ [] ∧ (∀ c ∈ cs, c.isDigit) ∧
    (cs.head? = some '0' → ∀ c ∈ cs, c = '0') ∧ cs.length ≤ 4300 then
    some (Nat.ofDigitChars 10 cs 0)
  else none

def words : List (String × Json) := [("None", .null), ("True", .bool true), ("False", .bool false)]

/-- The value of a literal, which may be an integer with a sign. -/
def value? (text : String) : Option Json :=
  match text.toList with
  | '"' :: rest => (body? 0 rest).map .str
  | '-' :: rest => (natural? rest).map fun n : Nat => .int (-(n : Int))
  | cs => ((natural? cs).map fun n : Nat => .int n) <|> words.lookup text

example : value? "\"a\\x41\\u0042\\U0001F600\\103\\q\"" =
    some (.str [0x61, 0x41, 0x42, 0x1F600, 0x43, 0x5C, 0x71]) := by cbv

theorem body?_skip (xs rest : List Char) : body? xs.length (xs ++ rest) = body? 0 rest := by
  induction xs with
  | nil => rfl
  | cons x xs ih => exact ih

/-- An escape stands for its code points. -/
theorem body?_escape {xs rest : List Char} {points : Text}
    (h : escape? (xs ++ rest) = some (points, xs.length)) :
    body? 0 ('\\' :: xs ++ rest) = (body? 0 rest).map (points ++ ·) := by
  rw [List.cons_append, body?, if_neg (by decide), if_neg (by decide), if_pos rfl, h]
  show (body? xs.length (xs ++ rest) >>= _) = _
  rw [body?_skip]
  cases body? 0 rest <;> rfl

theorem hex?_digits {ds : List (WrittenDigit 16)} (h : WrittenDigit.positional ds < 0x110000)
    (rest : List Char) :
    hex? ds.length (ds.map WrittenDigit.char ++ rest) = some ⟨WrittenDigit.positional ds, h⟩ := by
  have htake : (ds.map WrittenDigit.char ++ rest).take ds.length = ds.map WrittenDigit.char :=
    List.take_left' (by simp)
  rw [hex?, htake, Numeral.filterMap_digit? (le_refl 16) fun d _ => d.value.isLt,
    if_pos (List.length_map _)]
  exact dif_pos h

open Text

/-- The escape sequence of a code unit is one code point. -/
theorem body?_unitEscape {n : Nat} (h : n < 0x10000) (rest : List Char) :
    body? 0 (unitEscape n ++ rest) = (body? 0 rest).map (CodePoint.ofNat n :: ·) := by
  have hvalue := positional_unitDigits h
  have hrange : WrittenDigit.positional (unitDigits n) < 0x110000 := by omega
  have hescape : escape? ('u' :: (unitDigits n).map WrittenDigit.char ++ rest) =
      some ([CodePoint.ofNat n], ('u' :: (unitDigits n).map WrittenDigit.char).length) := by
    show (hex? (unitDigits n).length ((unitDigits n).map WrittenDigit.char ++ rest)).map _ = _
    have hpoint :
        (⟨WrittenDigit.positional (unitDigits n), hrange⟩ : CodePoint) = CodePoint.ofNat n :=
      Fin.ext (hvalue.trans (Nat.mod_eq_of_lt (by omega)).symm)
    rw [hex?_digits hrange, hpoint]
    rfl
  rw [unitEscape_eq]
  exact body?_escape hescape

/-- A quoted code point is read as its code units, each as a code point of its own. -/
theorem body?_quotedPoint (c : CodePoint) (rest : List Char) :
    body? 0 (quotedPoint c ++ rest) = (body? 0 rest).map (c.units.map .ofNat ++ ·) := by
  have hc := c.isLt
  have hletter {d : Char} (hsmall : c.val < 0x10000) (hd : escape? (d :: rest) = some ([c], 1)) :
      body? 0 (['\\', d] ++ rest) = (body? 0 rest).map (c.units.map .ofNat ++ ·) := by
    have hescape : escape? ([d] ++ rest) = some ([c], [d].length) := hd
    rw [CodePoint.units, if_pos hsmall, List.map_singleton, c.ofNat_val]
    exact body?_escape hescape
  unfold quotedPoint
  split
  case h_8 hquote hbackslash _ _ _ _ _ =>
    split
    · rename_i hn
      simp only [Bool.and_eq_true, decide_eq_true_eq] at hn
      obtain ⟨hpoint, hplain⟩ := printed_char hn hquote hbackslash
      simp only [List.mem_cons, List.mem_nil_iff, or_false, not_or] at hplain
      rw [List.singleton_append, body?, if_neg hplain.1, if_neg (by simp [hplain]),
        if_neg hplain.2.1, hpoint, CodePoint.units, if_pos (by omega), List.map_singleton,
        c.ofNat_val]
      cases body? 0 rest <;> rfl
    split
    · rename_i hsmall
      rw [body?_unitEscape hsmall, CodePoint.units, if_pos hsmall]
      rfl
    · rename_i hlarge
      rw [List.append_assoc, body?_unitEscape (by omega), body?_unitEscape (by omega),
        CodePoint.units, if_neg hlarge, Option.map_map]
      rfl
  all_goals
    rename_i h
    have hpoint : c = ⟨_, h ▸ hc⟩ := Fin.ext h
    refine hletter (by omega) ?_
    rw [hpoint]
    rfl

theorem body?_quoted (t : Text) :
    body? 0 (t.flatMap quotedPoint ++ ['"']) = some (t.units.map .ofNat) := by
  induction t with
  | nil => rfl
  | cons c t ih =>
    have hunits : Text.units (c :: t) = c.units ++ Text.units t := List.flatMap_cons
    rw [List.flatMap_cons, List.append_assoc, body?_quotedPoint, ih, hunits, List.map_append]
    rfl

/-- The digits of a number are read as the number. -/
theorem natural?_toDigits {n : Nat} (h : (Nat.toDigits 10 n).length ≤ 4300) :
    natural? (Nat.toDigits 10 n) = some n := by
  have hdigits : ∀ c ∈ Nat.toDigits 10 n, c.isDigit = true := fun c hc =>
    Nat.isDigit_of_mem_toDigits (by decide) (by decide) hc
  have hzero : (Nat.toDigits 10 n).head? = some '0' → ∀ c ∈ Nat.toDigits 10 n, c = '0' := by
    obtain ⟨first, more, hchars, -, hmore⟩ := exists_decimalDigits n
    rw [← hchars]
    intro hhead c hc
    have hfirst : first.char = '0' := Option.some.inj hhead
    rw [hmore ((Numeral.char_eq_zero (by decide) first).mp hfirst)] at hc
    exact (List.mem_singleton.mp hc).trans hfirst
  rw [natural?, if_pos ⟨Nat.toDigits_ne_nil, hdigits, hzero, h⟩, Nat.ofDigitChars_ten_toDigits]

theorem natural?_of_not_isDigit {c : Char} (hc : c.isDigit = false) (cs : List Char) :
    natural? (c :: cs) = none := by
  refine if_neg fun h => ?_
  have hdigit := h.2.1 c List.mem_cons_self
  rw [hc] at hdigit
  cases hdigit

/-- A text with neither quote nor sign is a number or a word. -/
theorem value?_unmarked {text : String} {c : Char} {cs : List Char} (htext : text.toList = c :: cs)
    (hquote : c ≠ '"') (hminus : c ≠ '-') :
    value? text = (((natural? (c :: cs)).map fun n : Nat => .int n) <|> words.lookup text) := by
  rw [value?, htext]
  simp only [List.cons.injEq, hquote, hminus, false_and, imp_false, not_false_eq_true, implies_true]

theorem value?_word {text : String} {c : Char} {cs : List Char} {v : Json}
    (htext : text.toList = c :: cs) (hc : c ∈ ['N', 'T', 'F'])
    (hword : words.lookup text = some v) : value? text = some v := by
  have hletter : c ≠ '"' ∧ c ≠ '-' ∧ c.isDigit = false := by
    fin_cases hc <;> decide
  rw [value?_unmarked htext hletter.1 hletter.2.1, natural?_of_not_isDigit hletter.2.2, hword]
  rfl

theorem value?_intText {n : Int} (h : (Nat.toDigits 10 n.natAbs).length ≤ 4300) :
    value? (Json.intText n) = some (.int n) := by
  have hnatural := natural?_toDigits h
  by_cases hn : n < 0
  · have htext : (Json.intText n).toList = '-' :: Nat.toDigits 10 n.natAbs := by
      simp [Json.intText, hn, Nat.repr_eq_ofList_toDigits]
    rw [value?, htext]
    show (natural? (Nat.toDigits 10 n.natAbs)).map _ = _
    rw [hnatural, Option.map_some]
    congr 2
    omega
  · have htext : (Json.intText n).toList = Nat.toDigits 10 n.natAbs := by
      simp [Json.intText, hn, Nat.repr_eq_ofList_toDigits]
    obtain ⟨c, cs, hcs⟩ :=
      List.exists_cons_of_ne_nil (Nat.toDigits_ne_nil (n := n.natAbs) (b := 10))
    have hdigit : c.isDigit = true :=
      Nat.isDigit_of_mem_toDigits (by decide) (by decide) (hcs ▸ List.mem_cons_self)
    have hne : c ≠ '"' ∧ c ≠ '-' := by
      constructor <;> rintro rfl <;> cases hdigit
    have hpos : (n.natAbs : Int) = n := by omega
    rw [hcs] at htext hnatural
    rw [value?_unmarked htext hne.1 hne.2, hnatural, Option.map_some, hpos]
    rfl

theorem value?_quoted (t : Text) : value? t.quoted = some (.str (t.units.map .ofNat)) := by
  have htext : t.quoted.toList = '"' :: (t.flatMap quotedPoint ++ ['"']) := String.toList_ofList
  rw [value?, htext]
  show (body? 0 _).map _ = _
  rw [body?_quoted]
  rfl

end EmittedLiteral

/-- The code points are their own code units exactly if they are all in the basic plane. -/
theorem Text.map_units_eq_iff (t : Text) :
    t.units.map CodePoint.ofNat = t ↔ ∀ c ∈ t, c.val < 0x10000 := by
  have hlength : ∀ c ∈ t, [c].length ≤ (c.units.map CodePoint.ofNat).length := by
    intro c _
    rw [CodePoint.units]
    split <;> simp
  have hpoint (c : CodePoint) : c.units.map CodePoint.ofNat = [c] ↔ c.val < 0x10000 := by
    rw [CodePoint.units]
    split
    · rename_i hsmall
      exact iff_of_true (by rw [List.map_singleton, c.ofNat_val]) hsmall
    · rename_i hlarge
      exact iff_of_false (by simp) hlarge
  have hpieces := flatMap_eq_flatMap_iff hlength
  rw [List.flatMap_singleton', ← List.map_flatMap] at hpieces
  exact hpieces.trans (forall₂_congr fun c _ => hpoint c)

/-- The same value with the code units of a string as its code points. -/
def Json.inUnits : Json → Json
  | str s => str (s.units.map CodePoint.ofNat)
  | v => v

/-- The literal that is written for a value is read as the value with its strings in code units. It
is read as the value itself exactly if no string has a code point outside the basic plane. -/
theorem emitted_literal_value_iff {v : Json} (h : v.IsConstant) :
    EmittedLiteral.value? (Backend.python.literal v) = some v.inUnits ∧
      (EmittedLiteral.value? (Backend.python.literal v) = some v ↔
        ∀ s, v = .str s → ∀ c ∈ s, c.val < 0x10000) := by
  cases v with
  | null =>
    have hvalue : EmittedLiteral.value? (Backend.python.literal .null) = some .null :=
      EmittedLiteral.value?_word rfl (by decide) rfl
    exact ⟨hvalue, by simp [hvalue]⟩
  | bool b =>
    have hvalue : EmittedLiteral.value? (Backend.python.literal (.bool b)) = some (.bool b) := by
      cases b <;> exact EmittedLiteral.value?_word rfl (by decide) rfl
    exact ⟨hvalue, by simp [hvalue]⟩
  | int n =>
    have hvalue : EmittedLiteral.value? (Backend.python.literal (.int n)) = some (.int n) :=
      EmittedLiteral.value?_intText h
    exact ⟨hvalue, by simp [hvalue]⟩
  | str s =>
    have hvalue : EmittedLiteral.value? (Backend.python.literal (.str s)) =
        some (.str (s.units.map .ofNat)) :=
      EmittedLiteral.value?_quoted s
    refine ⟨hvalue, ?_⟩
    rw [hvalue, Option.some.injEq, Json.str.injEq, s.map_units_eq_iff]
    constructor
    · intro hsmall t ht
      cases ht
      exact hsmall
    · exact fun hsmall => hsmall s rfl
  | float x => exact h.elim
  | arr items => exact h.elim
  | obj fields => exact h.elim

/-- Quotes, controls, a character beyond ASCII and half of a surrogate pair. -/
def basicText : Text := [0x22, 0x5C, 0x0A, 0x00, 0x7F, 0xE9, 0xD83D].map .ofNat

theorem basicText_literal_value : Json.IsConstant (.str basicText) ∧
    EmittedLiteral.value? (Backend.python.literal (.str basicText)) = some (.str basicText) := by
  have hbasic : ∀ s, Json.str basicText = .str s → ∀ c ∈ s, c.val < 0x10000 := by
    rintro s ⟨⟩
    simp [basicText, CodePoint.ofNat]
  exact ⟨trivial, (emitted_literal_value_iff (v := .str basicText) trivial).2.mpr hbasic⟩

/-- A character outside the basic plane becomes two surrogates. -/
theorem astral_literal_value_differs :
    EmittedLiteral.value? (Backend.python.literal (.str [0x1F600])) = some (.str [0xD83D, 0xDE00]) ∧
      EmittedLiteral.value? (Backend.python.literal (.str [0x1F600])) ≠ some (.str [0x1F600]) := by
  have hvalue : EmittedLiteral.value? (Backend.python.literal (.str [0x1F600])) =
      some (.str [0xD83D, 0xDE00]) := by
    cbv
  refine ⟨hvalue, ?_⟩
  rw [hvalue]
  simp

end Sil
