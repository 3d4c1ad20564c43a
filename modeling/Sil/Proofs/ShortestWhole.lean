import Mathlib
import Sil.Number.Shortest
import Sil.Proofs.NearestNumber

/-!
Integers of at most 53 bits survive floating-point numbers: each is a number itself, and its
shortest decimal is the integer, with zeros in the place of the digits that it ends in. For every
other integer lies outside the interval of the decimals that round to it.
-/
namespace Sil.Binary64

/-- Rounding leaves an integer of at most 53 bits alone. -/
theorem exists_ofRatio_eq {n : Nat} (hpos : 0 < n) (hn : n < 2 ^ 53) : ∃ k : Nat,
    n * 2 ^ k < 2 ^ 53 ∧ ofRatio false n 1 = .finite false (n * 2 ^ k) (-k) := by
  obtain ⟨hleast, hbelow, hfull⟩ := targetExponent_spec hpos one_pos
  rw [Nat.cast_one, div_one] at hbelow hfull
  have hexponent : targetExponent n 1 ≤ 0 := by
    by_contra hpositive
    have hlarge := hfull.resolve_left (by omega)
    have hlt : (2 : ℚ) ^ (52 + targetExponent n 1) < 2 ^ (53 : Int) :=
      hlarge.trans_lt (by exact_mod_cast hn)
    rw [zpow_lt_zpow_iff_right₀ one_lt_two] at hlt
    omega
  obtain ⟨k, hk⟩ : ∃ k : Nat, targetExponent n 1 = -k := ⟨(-targetExponent n 1).toNat, by omega⟩
  have hunits : inUnits n 1 (-k) = (n * 2 ^ k, 1) := by
    rcases Nat.eq_zero_or_pos k with rfl | hk
    · simp [inUnits, twoTo_eq]
    · rw [inUnits, if_neg (by omega), neg_neg, Int.toNat_natCast, twoTo_eq]
  have hround (q : Nat) : roundDiv q 1 = q := by simp [roundDiv, Nat.mod_one]
  have hbound : n * 2 ^ k < 2 ^ 53 := by
    have hpow : (2 : ℚ) ^ (53 + -(k : Int)) * 2 ^ k = 2 ^ 53 := by
      rw [← zpow_natCast, ← zpow_add₀ two_ne_zero]
      norm_num
    have hlt := mul_lt_mul_of_pos_right hbelow (pow_pos two_pos k)
    rw [hk, hpow] at hlt
    exact_mod_cast hlt
  refine ⟨k, hbound, ?_⟩
  rw [ofRatio, if_neg hpos.ne', hk]
  simp only [hunits, hround]
  rw [ofRounded, if_neg (by rw [mantissaBound]; omega), if_neg (by rw [maxExponent]; omega)]

/-- An interval around an integer in which no other one lies. -/
structure Isolates (i : Interval) (n : Nat) : Prop where
  value : i.value = n * i.den
  wide : 4 ≤ i.den
  low : i.value ≤ i.low + 2 ∧ i.low < i.value
  high : i.high ≤ i.value + 2 ∧ i.value < i.high

theorem isolates_roundingInterval {n k : Nat} (hpos : 0 < n) :
    Isolates (roundingInterval (n * 2 ^ k) (-k)) n := by
  have hm : 0 < n * 2 ^ k := Nat.mul_pos hpos (Nat.two_pow_pos k)
  have hden : 4 * (n * 2 ^ k) = n * 2 ^ (k + 2) := by ring
  have hwide : 2 ^ 2 ≤ 2 ^ (k + 2) := Nat.pow_le_pow_right two_pos (by omega)
  rw [roundingInterval]
  simp only [show ¬ (0 ≤ -(k : Int) - 2) by omega, if_false, twoTo_eq,
    show (-(-(k : Int) - 2)).toNat = k + 2 by omega]
  constructor
  · exact hden
  · exact hwide
  · simp only
    split <;> omega
  · simp

namespace Isolates
variable {i : Interval} {n : Nat}

theorem eq_of_holds (h : Isolates i n) {s : Nat} {d : Nat}
    (hd : (i.inUnits s).holds d = true) : d * 10 ^ s = n := by
  obtain ⟨hvalue, hwide, hlow, hhigh⟩ := h
  have hunits : i.inUnits s = { i with den := i.den * 10 ^ s } := by
    rw [Interval.inUnits, if_pos (by omega), Int.toNat_natCast, tenTo_eq]
  rw [hunits, Interval.holds] at hd
  have hnear : i.value ≤ d * (i.den * 10 ^ s) + 2 ∧ d * (i.den * 10 ^ s) ≤ i.value + 2 := by
    simp only at hd
    split at hd <;> simp only [Bool.and_eq_true, decide_eq_true_eq] at hd <;> omega
  have hprod : d * (i.den * 10 ^ s) = d * 10 ^ s * i.den := by ring
  rw [hvalue, hprod] at hnear
  generalize d * 10 ^ s = a at *
  -- Two multiples of four or more that are at most two apart.
  by_contra hne
  rcases Nat.lt_or_gt_of_ne hne with hlt | hlt
  · have hstep : (a + 1) * i.den ≤ n * i.den := Nat.mul_le_mul_right _ hlt
    rw [Nat.add_mul] at hstep
    omega
  · have hstep : (n + 1) * i.den ≤ a * i.den := Nat.mul_le_mul_right _ hlt
    rw [Nat.add_mul] at hstep
    omega

theorem eq_of_nearest? (h : Isolates i n) {s d : Nat} (hd : (i.inUnits s).nearest? = some d) :
    d * 10 ^ s = n := by
  unfold Interval.nearest? at hd
  simp only at hd
  split at hd
  · rename_i hbelow habove
    have heq := (h.eq_of_holds hbelow).trans (h.eq_of_holds habove).symm
    rw [Nat.mul_left_inj (by positivity)] at heq
    omega
  · rename_i hbelow _
    cases hd
    exact h.eq_of_holds hbelow
  · rename_i _ habove
    cases hd
    exact h.eq_of_holds habove
  · cases hd

theorem nearest?_isSome (h : Isolates i n) : ((i.inUnits 0).nearest?).isSome := by
  have hunits : i.inUnits 0 = i := by simp [Interval.inUnits, tenTo_eq]
  have hdiv : i.value / i.den = n := by
    rw [h.value, Nat.mul_div_cancel _ (by have := h.wide; omega)]
  have hholds : i.holds n = true := by
    obtain ⟨hvalue, -, hlow, hhigh⟩ := h
    rw [Interval.holds, ← hvalue]
    split <;> simp <;> omega
  rw [hunits, Interval.nearest?]
  simp only [hdiv, hholds]
  split <;> simp_all
  split_ifs <;> rfl

/-- The first grid with a point in the interval has the integer as its point. -/
theorem firstGrid_eq (h : Isolates i n) {fuel s : Nat} (hs : s < fuel) :
    0 ≤ (i.firstGrid fuel s).scale ∧
      (i.firstGrid fuel s).digits * 10 ^ (i.firstGrid fuel s).scale.toNat = n := by
  induction fuel generalizing s with
  | zero => omega
  | succ fuel ih =>
    rw [Interval.firstGrid]
    split
    · rename_i d hd
      exact ⟨by simp, by simpa using h.eq_of_nearest? hd⟩
    · rename_i hnone
      cases s with
      | zero =>
        have hsome := h.nearest?_isSome
        rw [show ((0 : Nat) : Int) = 0 from rfl] at hnone
        rw [hnone] at hsome
        cases hsome
      | succ s =>
        rw [show ((s + 1 : Nat) : Int) - 1 = (s : Nat) by omega]
        exact ih (by omega)

theorem decimalExponent_spec (h : Isolates i n) (hpos : 0 < n) (hn : n < 2 ^ 53)
    {k : Nat} (hk : i.den = 2 ^ k) : ∃ s : Nat, s < 17 ∧ i.decimalExponent = s := by
  have hlog : (Nat.log2 i.value : Int) - Nat.log2 i.den = Nat.log2 n := by
    have hlow := Nat.log2_self_le hpos.ne'
    have hhigh := @Nat.lt_log2_self n
    have hvalue : Nat.log2 (n * 2 ^ k) = Nat.log2 n + k := by
      rw [Nat.log2_eq_iff (Nat.mul_pos hpos (Nat.two_pow_pos k)).ne', pow_add, Nat.add_right_comm,
        pow_add _ (Nat.log2 n + 1)]
      exact ⟨Nat.mul_le_mul_right _ hlow, Nat.mul_lt_mul_of_pos_right hhigh (Nat.two_pow_pos k)⟩
    rw [h.value, hk, hvalue, Nat.log2_two_pow]
    omega
  have hreaches (s : Nat) : (i.inUnits s).den ≤ (i.inUnits s).value ↔ 10 ^ s ≤ n := by
    have hunits : i.inUnits s = { i with den := i.den * 10 ^ s } := by
      rw [Interval.inUnits, if_pos (by omega), Int.toNat_natCast, tenTo_eq]
    have hden : 0 < i.den := by have := h.wide; omega
    rw [hunits]
    simp only
    rw [h.value, Nat.mul_comm n, Nat.mul_le_mul_left_iff hden]
  have hsmall {s : Nat} (hs : 10 ^ s ≤ n) : s < 16 := by
    have hlt : 10 ^ s < 10 ^ 16 := hs.trans_lt (hn.trans (by norm_num))
    exact (Nat.pow_lt_pow_iff_right (by decide)).mp hlt
  have hbits : Nat.log2 n < 53 := (Nat.log2_lt hpos.ne').mpr hn
  obtain ⟨g, hg⟩ : ∃ g : Nat, (Nat.log2 n : Int) * 30103 / 100000 = g :=
    ⟨(Nat.log2 n) * 30103 / 100000, by omega⟩
  have hcases : i.decimalExponent = if 10 ^ (g + 2) ≤ n then ((g + 2 : Nat) : Int)
      else if 10 ^ (g + 1) ≤ n then ((g + 1 : Nat) : Int)
      else if 10 ^ g ≤ n then (g : Int) else (g : Int) - 1 := by
    rw [Interval.decimalExponent]
    simp only [hlog, hg, decide_eq_true_eq]
    rw [show (g : Int) + 2 = (g + 2 : Nat) by rfl, show (g : Int) + 1 = (g + 1 : Nat) by rfl]
    simp only [hreaches]
  rw [hcases]
  split_ifs with htwo hone hzero
  · exact ⟨g + 2, by have := hsmall htwo; omega, rfl⟩
  · exact ⟨g + 1, by have := hsmall hone; omega, rfl⟩
  · exact ⟨g, by have := hsmall hzero; omega, rfl⟩
  · have hg : g ≠ 0 := by
      rintro rfl
      exact hzero hpos
    exact ⟨g - 1, by omega, by omega⟩

end Isolates

/-- The shortest decimal of an integer of at most 53 bits is the integer. -/
theorem shortest_whole {n k : Nat} (hpos : 0 < n) (hn : n < 2 ^ 53) :
    (shortest (n * 2 ^ k) (-k)).digits * 10 ^ (shortest (n * 2 ^ k) (-k)).scale.toNat = n := by
  have h := @isolates_roundingInterval n k hpos
  have hden : (roundingInterval (n * 2 ^ k) (-k)).den = 2 ^ (k + 2) := by
    rw [roundingInterval]
    simp only [show ¬ (0 ≤ -(k : Int) - 2) by omega, if_false, twoTo_eq,
      show (-(-(k : Int) - 2)).toNat = k + 2 by omega]
  obtain ⟨s, hs, hexponent⟩ := h.decimalExponent_spec hpos hn hden
  rw [shortest]
  simp only [hexponent]
  exact (h.firstGrid_eq hs).2

end Sil.Binary64
