import Mathlib
import Sil.Proofs.SourceSpans

/-!
What the tokens of a source can hold. A name or a number has no line feed in it. A string has one
only at the end of an escape, where it continues a line.
-/
namespace Sil.SourceText

/-- The first characters of a text, so many of them, are on one line. -/
def OnOneLine (n : Nat) (cs : List Char) : Prop := '\n' ∉ cs.take n

namespace OnOneLine

variable {m n : Nat} {cs : List Char} {c : Char}

theorem zero : OnOneLine 0 cs := by simp [OnOneLine]

theorem succ_cons : OnOneLine (n + 1) (c :: cs) ↔ c ≠ '\n' ∧ OnOneLine n cs := by
  simp [OnOneLine, eq_comm]

theorem add (h : OnOneLine m cs) (h' : OnOneLine n (cs.drop m)) : OnOneLine (m + n) cs := by
  rw [OnOneLine, List.take_add, List.mem_append, not_or]
  exact ⟨h, h'⟩

theorem max (h : OnOneLine m cs) (h' : OnOneLine n cs) : OnOneLine (Max.max m n) cs := by
  rcases Nat.le_total m n with hle | hle
  · rwa [Nat.max_eq_right hle]
  · rwa [Nat.max_eq_left hle]

/-- Characters that pass a test which a line feed does not pass. -/
theorem takeWhile {p : Char → Bool} (hp : p '\n' = false) :
    OnOneLine (cs.takeWhile p).length cs := by
  intro h
  rw [← (List.prefix_iff_eq_take.mp (List.takeWhile_prefix p))] at h
  have hfeed := List.mem_takeWhile_imp h
  rw [hp] at hfeed
  cases hfeed

/-- The same for a bounded number of characters. -/
theorem takeWhile_take {p : Char → Bool} (hp : p '\n' = false) :
    OnOneLine ((cs.take m).takeWhile p).length cs := by
  have hle : ((cs.take m).takeWhile p).length ≤ m :=
    (List.takeWhile_prefix p).length_le.trans (List.length_take_le m cs)
  have hline : OnOneLine ((cs.take m).takeWhile p).length (cs.take m) := takeWhile hp
  rwa [OnOneLine, List.take_take, Nat.min_eq_left hle] at hline

end OnOneLine

open OnOneLine

variable {base n : Nat} {c : Char} {cs : List Char}

theorem ne_feed_of_digit (h : (Numeral.digit? base c).isSome) : c ≠ '\n' := by
  rintro rfl
  simp [Numeral.digit?] at h

theorem ne_feed_of_isNameChar (h : isNameChar c) : c ≠ '\n' := by
  rintro rfl
  simp [isNameChar] at h

theorem onOneLine_head (h : cs.head? = some c) (hc : c ≠ '\n') : OnOneLine 1 cs := by
  cases cs with
  | nil => cases h
  | cons d rest =>
    cases h
    exact succ_cons.mpr ⟨hc, zero⟩

/-- As many digits as characters, so each of them is one. -/
theorem onOneLine_digits
    (h : ((cs.take n).filter fun c => (Numeral.digit? 16 c).isSome).length = n) :
    OnOneLine n cs := by
  intro hfeed
  have hall : ∀ c ∈ cs.take n, (Numeral.digit? 16 c).isSome := by
    refine List.length_filter_eq_length_iff.mp (Nat.le_antisymm (List.length_filter_le _ _) ?_)
    rw [h]
    exact List.length_take_le n cs
  exact ne_feed_of_digit (hall _ hfeed) rfl

/-- An escape in a name has a mark, hexadecimal digits and perhaps braces. -/
theorem onOneLine_nameEscape (h : nameEscape? cs = some n) : 0 < n ∧ OnOneLine n cs := by
  unfold nameEscape? at h
  split at h
  · rename_i rest
    dsimp only at h
    split at h
    · cases h
    · rename_i hclosed
      cases h
      simp only [Bool.or_eq_true, bne_iff_ne, ne_eq, not_or, not_not] at hclosed
      have hdigits : OnOneLine (rest.takeWhile fun c => (Numeral.digit? 16 c).isSome).length rest :=
        takeWhile (by decide)
      have hinner := hdigits.add (onOneLine_head hclosed.2 (by decide))
      exact ⟨by omega,
        succ_cons.mpr ⟨by decide, succ_cons.mpr ⟨by decide, succ_cons.mpr ⟨by decide, hinner⟩⟩⟩⟩
  · rename_i rest _
    split at h
    · rename_i hcount
      cases h
      exact ⟨by omega,
        succ_cons.mpr ⟨by decide, succ_cons.mpr ⟨by decide, onOneLine_digits hcount⟩⟩⟩
    · cases h
  · cases h

theorem onOneLine_nameRest {skip : Nat} (h : OnOneLine skip cs) :
    OnOneLine (nameRest skip cs) cs := by
  fun_induction nameRest skip cs with
  | case1 => simp [OnOneLine]
  | case2 c rest skip ih =>
    rw [succ_cons] at h ⊢
    exact ⟨h.1, ih h.2⟩
  | case3 c rest hc ih => exact succ_cons.mpr ⟨ne_feed_of_isNameChar hc, ih zero⟩
  | case4 c rest hc n hn ih =>
    obtain ⟨hpos, hescape⟩ := onOneLine_nameEscape hn
    obtain ⟨k, rfl⟩ := Nat.exists_eq_succ_of_ne_zero hpos.ne'
    rw [succ_cons] at hescape ⊢
    exact ⟨hescape.1, ih hescape.2⟩
  | case5 => exact zero

theorem onOneLine_nameLength (cs : List Char) : OnOneLine (nameLength cs) cs := by
  unfold nameLength
  split
  · split
    · exact zero
    · exact onOneLine_nameRest zero
  · exact zero

theorem onOneLine_digitRun_go (m : Nat) : ∃ k, digitRun.go base m cs = m + k ∧ OnOneLine k cs := by
  fun_induction digitRun.go base m cs with
  | case1 m c rest hc ih =>
    obtain ⟨k, hk, hline⟩ := ih
    exact ⟨k + 2, by omega, succ_cons.mpr ⟨by decide, succ_cons.mpr ⟨ne_feed_of_digit hc, hline⟩⟩⟩
  | case2 => exact ⟨0, rfl, zero⟩
  | case3 m c rest _ hc ih =>
    obtain ⟨k, hk, hline⟩ := ih
    exact ⟨k + 1, by omega, succ_cons.mpr ⟨ne_feed_of_digit hc, hline⟩⟩
  | case4 => exact ⟨0, rfl, zero⟩
  | case5 => exact ⟨0, rfl, zero⟩

theorem onOneLine_digitRun (base : Nat) (cs : List Char) : OnOneLine (digitRun base cs) cs := by
  unfold digitRun
  split
  · rename_i c rest
    split
    · rename_i hc
      obtain ⟨k, hk, hline⟩ := @onOneLine_digitRun_go base rest 1
      rw [hk, Nat.add_comm]
      exact succ_cons.mpr ⟨ne_feed_of_digit hc, hline⟩
    · exact zero
  · exact zero

theorem onOneLine_exponentLength (cs : List Char) : OnOneLine (exponentLength cs) cs := by
  unfold exponentLength
  split
  · rename_i e rest
    split
    · rename_i he
      have hmark : e ≠ '\n' := by
        rintro rfl
        cases he
      have hsign : OnOneLine (if rest.head? == some '+' || rest.head? == some '-' then 1 else 0)
          rest := by
        split
        · rename_i hsign
          rw [Bool.or_eq_true, beq_iff_eq, beq_iff_eq] at hsign
          rcases hsign with hsign | hsign <;> exact onOneLine_head hsign (by decide)
        · exact zero
      generalize (if rest.head? == some '+' || rest.head? == some '-' then 1 else 0) = sign at hsign
      dsimp only
      split
      · exact zero
      · rw [Nat.add_assoc, Nat.add_comm]
        exact succ_cons.mpr ⟨hmark, hsign.add (onOneLine_digitRun 10 _)⟩
    · exact zero
  · exact zero

theorem onOneLine_wholeLength (cs : List Char) : OnOneLine (wholeLength cs) cs := by
  unfold wholeLength
  dsimp only
  split
  · split
    · exact onOneLine_digitRun 10 _
    · exact succ_cons.mpr ⟨by decide, zero⟩
  · exact succ_cons.mpr ⟨by decide, zero⟩
  · split
    · exact onOneLine_digitRun 10 _
    · exact zero
  · exact zero

/-- A point, digits and an exponent. -/
theorem onOneLine_fraction (rest : List Char) :
    OnOneLine (1 + digitRun 10 rest + exponentLength (rest.drop (digitRun 10 rest)))
      ('.' :: rest) := by
  rw [Nat.add_assoc, Nat.add_comm]
  exact succ_cons.mpr ⟨by decide, (onOneLine_digitRun 10 rest).add (onOneLine_exponentLength _)⟩

theorem onOneLine_decimalLength (cs : List Char) : OnOneLine (decimalLength cs) cs := by
  have hdigits := onOneLine_digitRun 10 cs
  have hwhole := onOneLine_wholeLength cs
  unfold decimalLength
  dsimp only
  split
  · split
    · exact zero
    · exact onOneLine_fraction _
  · rename_i rest _ hafter
    split
    · exact hdigits
    · refine hdigits.max ?_
      rw [Nat.add_assoc, Nat.add_assoc]
      refine hwhole.add ?_
      rw [hafter, ← Nat.add_assoc]
      exact onOneLine_fraction rest
  · split
    · exact hdigits
    · exact hdigits.max (hwhole.add (onOneLine_exponentLength _))

theorem onOneLine_numberLength (cs : List Char) : OnOneLine (numberLength cs) cs := by
  -- Behind an integer only its suffix is left; anything longer is a decimal number.
  have hfrom {integer : Nat} (h : OnOneLine integer cs) :
      OnOneLine (if 0 < integer && (cs.drop integer).head? == some 'n' then integer + 1
        else Max.max integer (decimalLength cs)) cs := by
    split
    · rename_i hsuffix
      rw [Bool.and_eq_true, beq_iff_eq] at hsuffix
      exact h.add (onOneLine_head hsuffix.2 (by decide))
    · exact h.max (onOneLine_decimalLength cs)
  refine hfrom ?_
  split
  · rename_i c rest
    split
    · rename_i base hbase
      have hmark : c ≠ '\n' := by
        rintro rfl
        cases hbase
      unfold markedLength
      dsimp only
      split
      · exact zero
      · exact succ_cons.mpr ⟨by decide, succ_cons.mpr ⟨hmark, onOneLine_digitRun base rest⟩⟩
    · exact onOneLine_digitRun 10 _
  · exact onOneLine_digitRun 10 cs

/-- A line feed right behind an escape mark, or with a carriage return or a question mark between
them. -/
def IsContinued (text : List Char) : Prop :=
  ∃ before between after, text = before ++ '\\' :: (between ++ '\n' :: after) ∧
    between ∈ [[], ['\r'], ['?']]

theorem IsContinued.feed_mem {text : List Char} (h : IsContinued text) : '\n' ∈ text := by
  obtain ⟨before, between, after, rfl, -⟩ := h
  simp

def FeedsContinue (text : List Char) : Prop := '\n' ∈ text → IsContinued text

theorem FeedsContinue.append {xs ys : List Char} (hx : FeedsContinue xs) (hy : FeedsContinue ys) :
    FeedsContinue (xs ++ ys) := by
  intro h
  rcases List.mem_append.mp h with h | h
  · obtain ⟨before, between, after, rfl, hbetween⟩ := hx h
    exact ⟨before, between, after ++ ys, by simp, hbetween⟩
  · obtain ⟨before, between, after, rfl, hbetween⟩ := hy h
    exact ⟨xs ++ before, between, after, by simp, hbetween⟩

theorem feedsContinue_of_onOneLine (h : OnOneLine n cs) : FeedsContinue (cs.take n) :=
  fun hfeed => absurd hfeed h

/-- Of the escapes in a string only the one that continues a line has a line feed, at its end. -/
theorem feedsContinue_escape (h : escapeLength? cs = some n) : FeedsContinue (cs.take n) := by
  unfold escapeLength? at h
  split at h
  · rename_i c rest
    split at h
    · rename_i hx
      subst hx
      split at h
      · rename_i hcount
        cases h
        refine feedsContinue_of_onOneLine (succ_cons.mpr ⟨by decide, succ_cons.mpr ⟨by decide, ?_⟩⟩)
        exact onOneLine_digits hcount
      · cases h
    split at h
    · exact feedsContinue_of_onOneLine (onOneLine_nameEscape h).2
    split at h
    · cases h
      rw [Nat.add_comm]
      exact feedsContinue_of_onOneLine (succ_cons.mpr ⟨by decide, takeWhile_take (by decide)⟩)
    split at h
    · rename_i hbetween
      cases h
      rw [Bool.and_eq_true, Bool.or_eq_true, decide_eq_true_iff, decide_eq_true_iff] at hbetween
      cases rest with
      | nil => simp at hbetween
      | cons d rest =>
        intro hfeed
        have hd : d = '\n' := by
          rcases hbetween.1 with rfl | rfl <;> simpa [eq_comm] using hfeed
        subst hd
        refine ⟨[], [c], [], rfl, ?_⟩
        rcases hbetween.1 with rfl | rfl <;> simp
    · cases h
      intro hfeed
      have hc : c = '\n' := by simpa [eq_comm] using hfeed
      subst hc
      exact ⟨[], [], [], rfl, by simp⟩
  · cases h

theorem le_triviaLength (mode : TriviaMode) (n : Nat) (cs : List Char)
    (h : mode = .blockComment → triviaLength mode n cs ≠ 0) : n ≤ triviaLength mode n cs := by
  fun_induction triviaLength mode n cs with grind

/-- The characters before a text only add to what is counted. -/
theorem triviaLength_add (mode : TriviaMode) {n : Nat} (hn : 0 < n) (k : Nat) (cs : List Char) :
    triviaLength mode (n + k) cs =
      if triviaLength mode n cs = 0 then 0 else triviaLength mode n cs + k := by
  fun_induction triviaLength mode n cs with grind [triviaLength]

private theorem exists_rest_of_triviaLength {mode : TriviaMode} {n j k : Nat} {cs : List Char}
    (hmode : mode = .blockComment → 0 < n + k) (h : triviaLength mode (n + j) cs = n + k) :
    ∃ k', k = k' + j ∧ triviaLength mode (n + j) cs = n + j + k' := by
  have hle := le_triviaLength mode (n + j) cs fun hm => by have := hmode hm; omega
  exact ⟨k - j, by omega, by omega⟩

/-- Nothing is left to skip after what was skipped. A comment that is not closed is left alone. -/
theorem triviaLength_drop {mode : TriviaMode} {n k : Nat} {cs : List Char}
    (hmode : mode = .blockComment → 0 < n) (h : triviaLength mode n cs = n + k) :
    triviaLength .space 0 (cs.drop k) = 0 := by
  fun_induction triviaLength mode n cs generalizing k with
  | case1 | case4 | case7 | case8 | case10 | case11 =>
    rename_i ih
    obtain ⟨k, rfl, hrest⟩ := exists_rest_of_triviaLength (by simp_all; try omega) h
    exact ih (by simp) hrest
  | case2 n rest closed hclosed =>
    obtain rfl : k = 0 := by omega
    have hadd := triviaLength_add .blockComment Nat.two_pos n rest
    rw [Nat.add_comm, show triviaLength .blockComment (n + 2) rest = 0 from hclosed] at hadd
    simp only [List.drop_zero, triviaLength]
    grind
  | case3 n rest closed hclosed =>
    rename_i ih
    obtain ⟨k, rfl, hrest⟩ := exists_rest_of_triviaLength (by omega) h
    exact ih (by simp) hrest
  | case5 n c rest hline hblock hspace =>
    obtain rfl : k = 0 := by omega
    rw [List.drop_zero, triviaLength, if_neg hspace]
    · exact hline
    · exact hblock
  | case6 | case9 | case12 => simp [triviaLength]

theorem Cursor.skipTrivia_idem (c : Cursor) : c.skipTrivia.skipTrivia = c.skipTrivia := by
  have h := @triviaLength_drop .space 0 _ c.rest (by simp) (Nat.zero_add _).symm
  rw [← Cursor.rest_advance] at h
  nth_rewrite 1 [Cursor.skipTrivia]
  rw [Cursor.skipTrivia, h]
  rfl

end Sil.SourceText
