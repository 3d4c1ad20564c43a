import Mathlib
import Sil.Number.Binary64

/-!
Rounding to floating-point numbers is correct. The finite numbers are the products of a mantissa
below `2 ^ 53` and a power of two; besides them `2 ^ 1024` is a candidate, which stands for
infinity. Main statements: `Sil.Binary64.isNearest_ofRatio`, a ratio is rounded to the nearest
candidate, to one with an even mantissa if there are two; and `Sil.Binary64.ofDecimal_eq_ofRatio`,
the limits that spare a decimal its arithmetic change nothing.
-/
namespace Sil.Binary64

def magnitude (m : Nat) (e : Int) : ℚ := m * 2 ^ e

/-- The mantissas and exponents of the finite numbers, and those of `2 ^ 1024`. -/
def IsCandidate (m : Nat) (e : Int) : Prop :=
  m < 2 ^ 53 ∧ -1074 ≤ e ∧ (e ≤ 971 ∨ m = 2 ^ 52 ∧ e = 972)

/-- No candidate is nearer than the given one, and only an even one has another as near. -/
def Beats (q : ℚ) (m : Nat) (e : Int) (m' : Nat) (e' : Int) : Prop :=
  |q - magnitude m e| ≤ |q - magnitude m' e'| ∧
    (|q - magnitude m e| = |q - magnitude m' e'| → magnitude m e = magnitude m' e' ∨ Even m)

def IsNearest (q : ℚ) : Binary64 → Prop
  | .finite _ m e => IsCandidate m e ∧ e ≤ 971 ∧ ∀ m' e', IsCandidate m' e' → Beats q m e m' e'
  | .infinite _ => ∀ m' e', IsCandidate m' e' → Beats q (2 ^ 52) 972 m' e'
  | .nan => False

theorem twoTo_eq (n : Nat) : twoTo n = 2 ^ n := rfl

theorem tenTo_eq (n : Nat) : tenTo n = 10 ^ n := rfl

theorem magnitude_mul_two (m : Nat) (e : Int) : magnitude (2 * m) e = magnitude m (e + 1) := by
  rw [magnitude, magnitude, zpow_add₀ two_ne_zero]
  push_cast
  ring

/-- A number is a whole multiple of a smaller power of two. -/
theorem exists_magnitude_eq (m : Nat) {e e' : Int} (h : e ≤ e') :
    ∃ k : Nat, magnitude m e' = k * 2 ^ e := by
  refine ⟨m * 2 ^ (e' - e).toNat, ?_⟩
  have hpow : (2 : ℚ) ^ e' = 2 ^ (e' - e).toNat * 2 ^ e := by
    rw [← zpow_natCast, ← zpow_add₀ two_ne_zero]
    congr 1
    omega
  rw [magnitude, hpow]
  push_cast
  ring

section Units
variable {num den : Nat}

theorem inUnits_eq (num : Nat) (hden : 0 < den) (e : Int) :
    0 < (inUnits num den e).2 ∧
      ((inUnits num den e).1 : ℚ) / (inUnits num den e).2 = num / den / 2 ^ e := by
  have hden' : (den : ℚ) ≠ 0 := by exact_mod_cast hden.ne'
  unfold inUnits
  simp only [twoTo_eq]
  split
  · rename_i he
    have hpow : (2 : ℚ) ^ e = 2 ^ e.toNat := by
      rw [← zpow_natCast, Int.toNat_of_nonneg he]
    refine ⟨Nat.mul_pos hden (Nat.two_pow_pos _), ?_⟩
    rw [hpow]
    push_cast
    rw [div_div]
  · rename_i he
    have hpow : (2 : ℚ) ^ e = (2 ^ (-e).toNat)⁻¹ := by
      rw [← zpow_natCast, ← zpow_neg, Int.toNat_of_nonneg (by omega), neg_neg]
    refine ⟨hden, ?_⟩
    rw [hpow]
    push_cast
    field_simp

/-- Rounding a quotient is off by at most a half, and is even if it is off by just that. -/
theorem roundDiv_spec (num : Nat) (hden : 0 < den) :
    |(num : ℚ) / den - roundDiv num den| ≤ 1 / 2 ∧
      (|(num : ℚ) / den - roundDiv num den| = 1 / 2 → Even (roundDiv num den)) := by
  have hden' : (0 : ℚ) < den := by exact_mod_cast hden
  have hsplit : (num : ℚ) / den = (num / den : Nat) + (num % den : Nat) / den := by
    rw [eq_comm, ← sub_eq_zero]
    have hdiv : (den : ℚ) * (num / den : Nat) + (num % den : Nat) = num := by
      exact_mod_cast Nat.div_add_mod num den
    field_simp
    linarith
  have hlt : num % den < den := Nat.mod_lt _ hden
  unfold roundDiv
  simp only
  generalize num / den = q at *
  generalize num % den = r at *
  rw [hsplit]
  split_ifs with hlow hhigh
  · have hr : (r : ℚ) / den < 1 / 2 := by
      rw [div_lt_div_iff₀ hden' two_pos]
      exact_mod_cast (by omega : r * 2 < 1 * den)
    have hr' : (0 : ℚ) ≤ r / den := by positivity
    rw [add_sub_cancel_left, abs_of_nonneg hr']
    exact ⟨hr.le, fun h => absurd h hr.ne⟩
  · have hr : 1 / 2 < (r : ℚ) / den := by
      rw [div_lt_div_iff₀ two_pos hden']
      exact_mod_cast (by omega : 1 * den < r * 2)
    have hr' : (r : ℚ) / den ≤ 1 := by
      rw [div_le_one hden']
      exact_mod_cast hlt.le
    push_cast
    rw [add_sub_add_left_eq_sub, abs_of_nonpos (by linarith)]
    exact ⟨by linarith, fun h => absurd h (by linarith)⟩
  · have hr : (r : ℚ) / den = 1 / 2 := by
      rw [div_eq_div_iff hden'.ne' two_ne_zero]
      exact_mod_cast (by omega : r * 2 = 1 * den)
    have heven : Even (q + q % 2) := by
      rw [Nat.even_iff]
      omega
    have hoff : |(q : ℚ) + r / den - (q + q % 2 : Nat)| = 1 / 2 := by
      rw [hr]
      push_cast
      rcases Nat.mod_two_eq_zero_or_one q with h | h <;> rw [h] <;> norm_num
    exact ⟨hoff.le, fun _ => heven⟩

/-- A ratio lies between the quotient of the leading powers of two and its double or half. -/
theorem ratio_bounds (hnum : 0 < num) (hden : 0 < den) :
    (2 : ℚ) ^ ((Nat.log2 num : Int) - Nat.log2 den - 1) < num / den ∧
      (num : ℚ) / den < 2 ^ ((Nat.log2 num : Int) - Nat.log2 den + 1) := by
  have hden' : (0 : ℚ) < den := by exact_mod_cast hden
  have hnumLow : (2 : ℚ) ^ (Nat.log2 num : Int) ≤ num := by
    exact_mod_cast Nat.log2_self_le hnum.ne'
  have hnumHigh : (num : ℚ) < 2 ^ ((Nat.log2 num : Int) + 1) := by
    exact_mod_cast Nat.lt_log2_self
  have hdenLow : (2 : ℚ) ^ (Nat.log2 den : Int) ≤ den := by
    exact_mod_cast Nat.log2_self_le hden.ne'
  have hdenHigh : (den : ℚ) < 2 ^ ((Nat.log2 den : Int) + 1) := by
    exact_mod_cast Nat.lt_log2_self
  generalize (Nat.log2 num : Int) = a at *
  generalize (Nat.log2 den : Int) = b at *
  constructor
  · rw [lt_div_iff₀ hden']
    calc (2 : ℚ) ^ (a - b - 1) * den < 2 ^ (a - b - 1) * 2 ^ (b + 1) := by gcongr
      _ = 2 ^ a := by rw [← zpow_add₀ two_ne_zero]; congr 1; omega
      _ ≤ num := hnumLow
  · rw [div_lt_iff₀ hden']
    calc (num : ℚ) < 2 ^ (a + 1) := hnumHigh
      _ = 2 ^ (a - b + 1) * 2 ^ b := by rw [← zpow_add₀ two_ne_zero]; congr 1; omega
      _ ≤ 2 ^ (a - b + 1) * den := by gcongr

/-- Without a least exponent, a ratio would have a mantissa of 53 bits. -/
theorem exists_fullExponent (hnum : 0 < num) (hden : 0 < den) :
    ∃ e, targetExponent num den = max (-1074) e ∧
      (num : ℚ) / den < 2 ^ (53 + e) ∧ 2 ^ (52 + e) ≤ (num : ℚ) / den := by
  obtain ⟨hlow, hhigh⟩ := ratio_bounds hnum hden
  have htarget : targetExponent num den =
      let low := (Nat.log2 num : Int) - Nat.log2 den - 53
      max (-1074) (if (inUnits num den low).1 / (inUnits num den low).2 < 2 ^ 53 then low
        else low + 1) := rfl
  rw [htarget]
  generalize (Nat.log2 num : Int) - Nat.log2 den = k at *
  dsimp only
  obtain ⟨hunit, hunits⟩ := inUnits_eq num hden (k - 53)
  have hunit' : (0 : ℚ) < (inUnits num den (k - 53)).2 := by exact_mod_cast hunit
  have hfits : (inUnits num den (k - 53)).1 / (inUnits num den (k - 53)).2 < 2 ^ 53 ↔
      (num : ℚ) / den < 2 ^ k := by
    have hcast : (inUnits num den (k - 53)).1 < 2 ^ 53 * (inUnits num den (k - 53)).2 ↔
        ((inUnits num den (k - 53)).1 : ℚ) / (inUnits num den (k - 53)).2 < 2 ^ 53 := by
      rw [div_lt_iff₀ hunit']
      exact_mod_cast Iff.rfl
    have hk : (2 : ℚ) ^ 53 * 2 ^ (k - 53) = 2 ^ k := by
      rw [← zpow_natCast, ← zpow_add₀ two_ne_zero]
      congr 1
      omega
    rw [Nat.div_lt_iff_lt_mul hunit, hcast, hunits, div_lt_iff₀ (zpow_pos two_pos _), hk]
  by_cases h : (inUnits num den (k - 53)).1 / (inUnits num den (k - 53)).2 < 2 ^ 53
  · rw [if_pos h]
    refine ⟨k - 53, rfl, ?_⟩
    rw [show 53 + (k - 53) = k by omega, show 52 + (k - 53) = k - 1 by omega]
    exact ⟨hfits.mp h, hlow.le⟩
  · rw [if_neg h]
    refine ⟨k - 53 + 1, rfl, ?_⟩
    rw [show 53 + (k - 53 + 1) = k + 1 by omega, show 52 + (k - 53 + 1) = k by omega]
    exact ⟨hhigh, not_lt.mp (hfits.not.mp h)⟩

/-- The exponent of a ratio leaves it below `2 ^ 53` units and, unless it is the least one, not
below `2 ^ 52` of them. -/
theorem targetExponent_spec (hnum : 0 < num) (hden : 0 < den) :
    -1074 ≤ targetExponent num den ∧
      (num : ℚ) / den < 2 ^ (53 + targetExponent num den) ∧
      (targetExponent num den = -1074 ∨
        2 ^ (52 + targetExponent num den) ≤ (num : ℚ) / den) := by
  obtain ⟨e, he, hbelow, habove⟩ := exists_fullExponent hnum hden
  rw [he]
  rcases le_total e (-1074) with hle | hle
  · rw [max_eq_left hle]
    refine ⟨le_rfl, hbelow.trans_le ?_, .inl rfl⟩
    exact zpow_le_zpow_right₀ one_le_two (by omega)
  · rw [max_eq_right hle]
    exact ⟨hle, hbelow, .inr habove⟩

end Units

/-- On one grid, the rounded quotient is at least as near as any other point. -/
theorem beats_of_grid (num : Nat) {den : Nat} (hden : 0 < den) (e : Int) (k : Nat) :
    |(num : ℚ) / den - roundDiv (inUnits num den e).1 (inUnits num den e).2 * 2 ^ e| ≤
        |(num : ℚ) / den - k * 2 ^ e| ∧
      (|(num : ℚ) / den - roundDiv (inUnits num den e).1 (inUnits num den e).2 * 2 ^ e| =
          |(num : ℚ) / den - k * 2 ^ e| →
        roundDiv (inUnits num den e).1 (inUnits num den e).2 = k ∨
          Even (roundDiv (inUnits num den e).1 (inUnits num den e).2)) := by
  obtain ⟨hunit, hunits⟩ := inUnits_eq num hden e
  obtain ⟨hoff, heven⟩ := roundDiv_spec (inUnits num den e).1 hunit
  generalize roundDiv (inUnits num den e).1 (inUnits num den e).2 = m at *
  have hpow : (0 : ℚ) < 2 ^ e := zpow_pos two_pos e
  have hscale (j : Nat) :
      |(num : ℚ) / den - j * 2 ^ e| = |(num : ℚ) / den / 2 ^ e - j| * 2 ^ e := by
    rw [← abs_of_pos hpow, ← abs_mul, abs_of_pos hpow, sub_mul, div_mul_cancel₀ _ hpow.ne']
  rw [hunits] at hoff heven
  rw [hscale, hscale, mul_le_mul_iff_left₀ hpow, mul_left_inj' hpow.ne']
  generalize (num : ℚ) / den / 2 ^ e = x at *
  by_cases hk : m = k
  · subst hk
    exact ⟨le_rfl, fun _ => .inl rfl⟩
  · -- The points are a unit apart or more, so the other one is off by a half at least.
    have hapart : (1 : ℚ) ≤ |(m : ℚ) - k| := by
      have hint : (1 : Int) ≤ |(m : Int) - k| := Int.one_le_abs (by omega)
      exact_mod_cast hint
    have htriangle : |(m : ℚ) - k| ≤ |x - m| + |x - k| := by
      rw [abs_sub_comm x m]
      have hsum := abs_add_le ((m : ℚ) - x) (x - k)
      rwa [sub_add_sub_cancel] at hsum
    refine ⟨by linarith, fun h => .inr (heven ?_)⟩
    linarith

/-- Below the exponent of the ratio there is nothing nearer than the least full mantissa. -/
theorem lt_of_lower_exponent {q : ℚ} {m : Nat} {e e' : Int} (hq : 2 ^ (52 + e) ≤ q)
    (hm : m < 2 ^ 53) (he : e' < e) :
    |q - (2 ^ 52 : Nat) * 2 ^ e| < |q - magnitude m e'| := by
  have hfull : ((2 ^ 52 : Nat) : ℚ) * 2 ^ e = 2 ^ (52 + e) := by
    rw [zpow_add₀ two_ne_zero]
    norm_num
  have hbelow : magnitude m e' < 2 ^ (52 + e) := by
    have hm' : (m : ℚ) < 2 ^ (53 : Int) := by exact_mod_cast hm
    calc magnitude m e' < 2 ^ (53 : Int) * 2 ^ e' := by
          rw [magnitude]
          gcongr
      _ = 2 ^ (53 + e') := (zpow_add₀ two_ne_zero _ _).symm
      _ ≤ 2 ^ (52 + e) := zpow_le_zpow_right₀ one_le_two (by omega)
  rw [hfull, abs_of_nonneg (by linarith), abs_of_nonneg (by linarith)]
  linarith

/-- The mantissa of a ratio at its exponent is at least as near as any number of the format. -/
theorem beats_rounded {num den m' : Nat} {e' : Int} (hnum : 0 < num) (hden : 0 < den)
    (hm' : m' < 2 ^ 53) (he' : -1074 ≤ e') :
    Beats (num / den) (roundDiv (inUnits num den (targetExponent num den)).1
      (inUnits num den (targetExponent num den)).2) (targetExponent num den) m' e' := by
  obtain ⟨-, -, hfull⟩ := targetExponent_spec hnum hden
  generalize targetExponent num den = e at *
  rcases le_or_gt e e' with hle | hlt
  · obtain ⟨k, hk⟩ := exists_magnitude_eq m' hle
    obtain ⟨hnear, htie⟩ := beats_of_grid num hden e k
    rw [Beats, hk, magnitude]
    refine ⟨hnear, fun h => (htie h).imp_left fun h => by rw [h]⟩
  · have hq := hfull.resolve_left (by omega)
    have hstrict := (beats_of_grid num hden e (2 ^ 52)).1.trans_lt
      (lt_of_lower_exponent hq hm' hlt)
    exact ⟨hstrict.le, fun h => absurd h hstrict.ne⟩

/-- From halfway beyond the last finite number on, `2 ^ 1024` is nearest. -/
theorem beats_infinite {q : ℚ} {m' : Nat} {e' : Int} (hq : (2 ^ 53 - 1 / 2) * 2 ^ (971 : Int) ≤ q)
    (h : IsCandidate m' e') : Beats q (2 ^ 52) 972 m' e' := by
  obtain ⟨hm', -, he' | ⟨rfl, rfl⟩⟩ := h
  · have hunit : (0 : ℚ) < 2 ^ (971 : Int) := zpow_pos two_pos _
    have hlast : magnitude m' e' ≤ (2 ^ 53 - 1) * 2 ^ (971 : Int) := by
      have hm : (m' : ℚ) ≤ 2 ^ 53 - 1 := by
        have hsucc : ((m' + 1 : Nat) : ℚ) ≤ (2 ^ 53 : Nat) := by exact_mod_cast hm'
        push_cast at hsucc
        linarith
      have hpow : (2 : ℚ) ^ e' ≤ 2 ^ (971 : Int) := zpow_le_zpow_right₀ one_le_two he'
      rw [magnitude]
      exact mul_le_mul hm hpow (zpow_pos two_pos _).le (by norm_num)
    have hfirst : magnitude (2 ^ 52) 972 = 2 ^ 53 * 2 ^ (971 : Int) := by
      rw [show (972 : Int) = 971 + 1 by rfl, ← magnitude_mul_two, magnitude]
      norm_num
    refine ⟨?_, fun _ => .inr (by decide)⟩
    generalize (2 : ℚ) ^ (971 : Int) = unit at *
    rw [hfirst, abs_of_nonneg (a := q - magnitude m' e') (by linarith), abs_le]
    constructor <;> linarith
  · exact ⟨le_rfl, fun _ => .inl rfl⟩

/-- A mantissa that no other beats keeps its place when it is brought into range. -/
theorem isNearest_ofRounded {q : ℚ} {m : Nat} {e : Int} (negative : Bool) (hm : m ≤ 2 ^ 53)
    (he : -1074 ≤ e) (hbeats : ∀ m' e', IsCandidate m' e' → Beats q m e m' e')
    (hlarge : 971 < e ∨ m = 2 ^ 53 ∧ e = 971 → (2 ^ 53 - 1 / 2) * 2 ^ (971 : Int) ≤ q) :
    IsNearest q (ofRounded negative m e) := by
  unfold ofRounded mantissaBound maxExponent leastFull
  split_ifs with hcarry hinfinite hinfinite
  · exact fun m' e' h => beats_infinite (hlarge (by omega)) h
  · refine ⟨⟨by decide, by omega, .inl (by omega)⟩, by omega, fun m' e' h => ?_⟩
    have hcarried : magnitude (2 * 2 ^ 52) e = magnitude (2 ^ 52) (e + 1) := magnitude_mul_two _ e
    have hb := hbeats m' e' h
    rw [hcarry, Beats, show 9007199254740992 = 2 * 2 ^ 52 by rfl, hcarried] at hb
    exact ⟨hb.1, fun _ => .inr (by decide)⟩
  · exact fun m' e' h => beats_infinite (hlarge (.inl hinfinite)) h
  · exact ⟨⟨by omega, he, .inl (by omega)⟩, by omega, hbeats⟩

theorem isNearest_zero (negative : Bool) : IsNearest 0 (zero negative) := by
  have hzero : magnitude 0 minExponent = 0 := by simp [magnitude]
  refine ⟨⟨by decide, le_rfl, .inl (by decide)⟩, by decide, fun m' e' _ => ?_⟩
  rw [Beats, hzero, sub_zero, abs_zero, zero_sub, abs_neg]
  refine ⟨abs_nonneg _, fun h => .inl ?_⟩
  exact (abs_eq_zero.mp h.symm).symm

/-- A ratio is rounded correctly. -/
theorem isNearest_ofRatio (negative : Bool) (num : Nat) {den : Nat} (hden : 0 < den) :
    IsNearest (num / den) (ofRatio negative num den) := by
  rcases Nat.eq_zero_or_pos num with rfl | hnum
  · rw [Nat.cast_zero, zero_div]
    exact isNearest_zero negative
  obtain ⟨hleast, hbelow, hfull⟩ := targetExponent_spec hnum hden
  obtain ⟨hunit, hunits⟩ := inUnits_eq num hden (targetExponent num den)
  have hoff := (roundDiv_spec (inUnits num den (targetExponent num den)).1 hunit).1
  have hbeats (m' : Nat) (e' : Int) (h : IsCandidate m' e') :=
    beats_rounded hnum hden h.1 h.2.1
  rw [ofRatio, if_neg hnum.ne']
  dsimp only
  rw [hunits, abs_le] at hoff
  generalize targetExponent num den = e at *
  generalize roundDiv (inUnits num den e).1 (inUnits num den e).2 = m at *
  have hpow : (0 : ℚ) < 2 ^ e := zpow_pos two_pos e
  refine isNearest_ofRounded negative ?_ hleast hbeats ?_
  · have hlt : (num : ℚ) / den / 2 ^ e < 2 ^ 53 := by
      rwa [div_lt_iff₀ hpow, ← zpow_natCast, ← zpow_add₀ two_ne_zero]
    have hm : (m : ℚ) < (2 ^ 53 + 1 : Nat) := by
      push_cast
      linarith
    exact Nat.lt_succ_iff.mp (by exact_mod_cast hm)
  · rintro (hlarge | ⟨rfl, rfl⟩)
    · have hstart : (2 : ℚ) ^ (1024 : Int) ≤ num / den :=
        (zpow_le_zpow_right₀ one_le_two (by omega)).trans (hfull.resolve_left (by omega))
      rw [show (1024 : Int) = (53 : Nat) + 971 by rfl, zpow_add₀ two_ne_zero, zpow_natCast]
        at hstart
      have hunit' : (0 : ℚ) < 2 ^ (971 : Int) := zpow_pos two_pos _
      generalize (2 : ℚ) ^ (971 : Int) = unit at *
      linarith
    · generalize (2 : ℚ) ^ (971 : Int) = unit at *
      push_cast at hoff
      have hhalf : (2 : ℚ) ^ 53 - 1 / 2 ≤ num / den / unit := by linarith
      rwa [le_div_iff₀ hpow] at hhalf

/-- The ratio that a decimal stands for. -/
theorem decimal_eq (digits : Nat) (scale : Int) :
    ((digits * 10 ^ scale.toNat : Nat) : ℚ) / (10 ^ (-scale).toNat : Nat) =
      digits * 10 ^ scale := by
  rcases le_total 0 scale with h | h
  · have hscale : (10 : ℚ) ^ scale = 10 ^ scale.toNat := by
      rw [← zpow_natCast, Int.toNat_of_nonneg h]
    rw [hscale, show (-scale).toNat = 0 by omega]
    simp
  · have hscale : (10 : ℚ) ^ scale = (10 ^ (-scale).toNat)⁻¹ := by
      rw [← zpow_natCast, ← zpow_neg, Int.toNat_of_nonneg (by omega), neg_neg]
    rw [hscale, show scale.toNat = 0 by omega]
    push_cast
    ring

/-- A ratio beyond the range is infinite. -/
theorem ofRatio_of_large {num den : Nat} (negative : Bool) (hden : 0 < den)
    (h : (10 : ℚ) ^ (400 : Int) ≤ num / den) : ofRatio negative num den = .infinite negative := by
  have hnum : 0 < num := by
    rcases Nat.eq_zero_or_pos num with rfl | hnum
    · rw [Nat.cast_zero, zero_div] at h
      exact absurd h (not_le.mpr (zpow_pos (by norm_num) _))
    · exact hnum
  obtain ⟨-, hbelow, -⟩ := targetExponent_spec hnum hden
  have hexponent : 971 < targetExponent num den := by
    have hlt : (2 : ℚ) ^ (1200 : Int) < 2 ^ (53 + targetExponent num den) := by
      refine lt_of_le_of_lt ?_ hbelow
      refine le_trans ?_ h
      rw [show (1200 : Int) = 3 * 400 by rfl, zpow_mul]
      exact zpow_le_zpow_left₀ (by norm_num) (by norm_num) (by norm_num)
    rw [zpow_lt_zpow_iff_right₀ one_lt_two] at hlt
    omega
  rw [ofRatio, if_neg hnum.ne']
  dsimp only
  unfold ofRounded maxExponent
  split_ifs <;> first | rfl | omega

/-- A ratio below half of the least number is zero. -/
theorem ofRatio_of_small {num den : Nat} (negative : Bool) (hden : 0 < den)
    (h : (num : ℚ) / den < 10 ^ (-399 : Int)) : ofRatio negative num den = zero negative := by
  rcases Nat.eq_zero_or_pos num with rfl | hnum
  · rfl
  have hsmall : (num : ℚ) / den < 2 ^ (-1197 : Int) := by
    refine h.trans_le ?_
    rw [show (-399 : Int) = -(399 : Nat) by rfl, show (-1197 : Int) = -(3 * 399 : Nat) by rfl,
      zpow_neg, zpow_neg, zpow_natCast, zpow_natCast, pow_mul]
    gcongr
    norm_num
  obtain ⟨-, -, hfull⟩ := targetExponent_spec hnum hden
  have hexponent : targetExponent num den = -1074 := by
    by_contra hne
    have hlt := (hfull.resolve_left hne).trans_lt hsmall
    rw [zpow_lt_zpow_iff_right₀ one_lt_two] at hlt
    have hleast := (targetExponent_spec hnum hden).1
    omega
  obtain ⟨hunit, hunits⟩ := inUnits_eq num hden (-1074)
  have hoff := (roundDiv_spec (inUnits num den (-1074)).1 hunit).1
  have hround : roundDiv (inUnits num den (-1074)).1 (inUnits num den (-1074)).2 = 0 := by
    have hquarter : (num : ℚ) / den / 2 ^ (-1074 : Int) < 1 / 4 := by
      rw [div_lt_iff₀ (zpow_pos two_pos _)]
      refine hsmall.trans_le ?_
      rw [show (1 / 4 : ℚ) = 2 ^ (-2 : Int) by norm_num, ← zpow_add₀ two_ne_zero]
      exact zpow_le_zpow_right₀ one_le_two (by norm_num)
    rw [hunits, abs_le] at hoff
    have hlt : (roundDiv (inUnits num den (-1074)).1 (inUnits num den (-1074)).2 : ℚ) < 1 := by
      linarith
    exact Nat.lt_one_iff.mp (by exact_mod_cast hlt)
  rw [ofRatio, if_neg hnum.ne', hexponent]
  dsimp only
  rw [hround]
  rfl

theorem ten_pow_le_two_pow (n : Nat) : 10 ^ (n * 3 / 10) ≤ 2 ^ n := by
  have hten : (10 ^ (n * 3 / 10)) ^ 10 ≤ (2 ^ n) ^ 10 := by
    calc (10 ^ (n * 3 / 10)) ^ 10 = 10 ^ (n * 3 / 10 * 10) := (pow_mul ..).symm
      _ ≤ 10 ^ (3 * n) := Nat.pow_le_pow_right (by decide) (by omega)
      _ = (10 ^ 3) ^ n := pow_mul ..
      _ ≤ (2 ^ 10) ^ n := Nat.pow_le_pow_left (by decide) n
      _ = (2 ^ n) ^ 10 := pow_right_comm ..
  exact (Nat.pow_le_pow_iff_left (by decide)).mp hten

theorem two_pow_le_ten_pow (n : Nat) : 2 ^ (n + 1) ≤ 10 ^ (n * 4 / 10 + 2) := by
  calc 2 ^ (n + 1) ≤ 2 ^ (5 * (n / 5 + 1)) := Nat.pow_le_pow_right (by decide) (by omega)
    _ = (2 ^ 5) ^ (n / 5 + 1) := pow_mul ..
    _ ≤ (10 ^ 2) ^ (n / 5 + 1) := Nat.pow_le_pow_left (by decide) _
    _ = 10 ^ (2 * (n / 5 + 1)) := (pow_mul ..).symm
    _ ≤ 10 ^ (n * 4 / 10 + 2) := Nat.pow_le_pow_right (by decide) (by omega)

/-- A decimal is rounded like the ratio that it stands for. -/
theorem ofDecimal_eq_ofRatio (negative : Bool) (digits : Nat) (scale : Int) :
    ofDecimal negative digits scale =
      ofRatio negative (digits * 10 ^ scale.toNat) (10 ^ (-scale).toNat) := by
  have hten : 0 < 10 ^ (-scale).toNat := Nat.pos_of_neZero _
  have hpow : (0 : ℚ) < 10 ^ scale := zpow_pos (by norm_num) scale
  unfold ofDecimal
  dsimp only
  split_ifs with hzero hlarge hsmall hscale
  · rw [hzero, Nat.zero_mul]
    rfl
  · refine (ofRatio_of_large negative hten ?_).symm
    have hdigits : (10 : ℚ) ^ (Nat.log2 digits * 3 / 10) ≤ digits := by
      exact_mod_cast (ten_pow_le_two_pow _).trans (Nat.log2_self_le hzero)
    calc (10 : ℚ) ^ (400 : Int) ≤ 10 ^ (((Nat.log2 digits * 3 / 10 : Nat) : Int) + scale) :=
          zpow_le_zpow_right₀ (by norm_num) (by omega)
      _ = 10 ^ (Nat.log2 digits * 3 / 10) * 10 ^ scale := by
          rw [zpow_add₀ (by norm_num), zpow_natCast]
      _ ≤ digits * 10 ^ scale := mul_le_mul_of_nonneg_right hdigits hpow.le
      _ = _ := (decimal_eq digits scale).symm
  · refine (ofRatio_of_small negative hten ?_).symm
    have hdigits : (digits : ℚ) < 10 ^ (Nat.log2 digits * 4 / 10 + 2) := by
      exact_mod_cast Nat.lt_log2_self.trans_le (two_pow_le_ten_pow _)
    calc ((digits * 10 ^ scale.toNat : Nat) : ℚ) / (10 ^ (-scale).toNat : Nat)
        = digits * 10 ^ scale := decimal_eq digits scale
      _ < 10 ^ (Nat.log2 digits * 4 / 10 + 2) * 10 ^ scale :=
          mul_lt_mul_of_pos_right hdigits hpow
      _ = 10 ^ (((Nat.log2 digits * 4 / 10 + 2 : Nat) : Int) + scale) := by
          rw [zpow_add₀ (by norm_num), zpow_natCast]
      _ ≤ 10 ^ (-399 : Int) := zpow_le_zpow_right₀ (by norm_num) (by omega)
  · rw [show (-scale).toNat = 0 by omega]
    rfl
  · rw [show scale.toNat = 0 by omega, Nat.pow_zero, Nat.mul_one]
    rfl

end Sil.Binary64
