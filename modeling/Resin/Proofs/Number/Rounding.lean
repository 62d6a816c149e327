import Mathlib.Algebra.Order.Field.Power
import Mathlib.Data.Rat.Cast.Order
import Mathlib.Tactic.FieldSimp
import Mathlib.Tactic.Linarith
import Mathlib.Tactic.NormNum
import Mathlib.Tactic.Positivity
import Mathlib.Tactic.Ring
import Resin.Number.Decimal

/-!
# Rounding to a number

`Number.ofRatio` gives numbers of one form: a mantissa of full length, or one of any length at the
smallest exponent (`ofRatio_canonical`). A fraction that is a number of this form already is not
changed by rounding (`ofRatio_of_eq`).
-/

namespace Resin.Number

/-- The mantissa and the exponent of a number as rounding leaves them. -/
structure Canonical (m : Nat) (e : Int) : Prop where
  min_le : minExponent ≤ e
  le_max : e ≤ maxExponent
  lt_full : m < 2 ^ mantissaBits
  full : 2 ^ (mantissaBits - 1) ≤ m ∨ e = minExponent

/-! ## Powers of two -/

theorem two_zpow (k : Int) : (2 : ℚ) ^ k = 2 ^ k.toNat / 2 ^ (-k).toNat := by
  rcases Int.le_total 0 k with hk | hk
  · have hneg : (-k).toNat = 0 := by omega
    have hk' : ((k.toNat : Nat) : Int) = k := Int.toNat_of_nonneg hk
    rw [hneg, pow_zero, div_one, ← zpow_natCast, hk']
  · have hpos : k.toNat = 0 := by omega
    have hk' : (((-k).toNat : Nat) : Int) = -k := Int.toNat_of_nonneg (by omega)
    rw [hpos, pow_zero, ← zpow_natCast, hk', zpow_neg, one_div, inv_inv]

theorem zpow_mul_pow {k : Int} {m n : Nat} (h : k + m = n) : (2 : ℚ) ^ k * 2 ^ m = 2 ^ n := by
  rw [← zpow_natCast, ← zpow_natCast, ← zpow_add₀ two_ne_zero, h]

variable {num den : Nat}

/-- Comparing a fraction with a number by whole numbers. -/
theorem mul_le_iff (hden : den ≠ 0) (m : Nat) (k : Int) :
    m * (den * 2 ^ k.toNat) ≤ num * 2 ^ (-k).toNat ↔ (m : ℚ) * 2 ^ k ≤ num / den := by
  have hden' : (0 : ℚ) < den := by positivity
  rw [two_zpow, ← mul_div_assoc, div_le_div_iff₀ (by positivity) hden', mul_assoc,
    mul_comm (den : Nat)]
  norm_cast

theorem le_mul_iff (hden : den ≠ 0) (m : Nat) (k : Int) :
    num * 2 ^ (-k).toNat ≤ m * (den * 2 ^ k.toNat) ↔ (num : ℚ) / den ≤ m * 2 ^ k := by
  have hden' : (0 : ℚ) < den := by positivity
  rw [two_zpow, ← mul_div_assoc, div_le_div_iff₀ hden' (by positivity), mul_assoc,
    mul_comm (den : Nat)]
  norm_cast

/-- A fraction lies between the power of two at its logarithm and the next one. -/
theorem floorLog_spec (hnum : num ≠ 0) (hden : den ≠ 0) :
    (2 : ℚ) ^ floorLog num den ≤ num / den ∧ (num : ℚ) / den < 2 ^ (floorLog num den + 1) := by
  have hden' : (0 : ℚ) < den := by positivity
  have hn : (2 : ℚ) ^ num.log2 ≤ num := by exact_mod_cast Nat.log2_self_le hnum
  have hn' : (num : ℚ) < 2 ^ (num.log2 + 1) := by exact_mod_cast Nat.lt_log2_self
  have hd : (2 : ℚ) ^ den.log2 ≤ den := by exact_mod_cast Nat.log2_self_le hden
  have hd' : (den : ℚ) < 2 ^ (den.log2 + 1) := by exact_mod_cast Nat.lt_log2_self
  -- the two logarithms leave only the guess and the number below it
  have hlower : (2 : ℚ) ^ ((num.log2 : Int) - den.log2 - 1) ≤ num / den := by
    rw [le_div_iff₀ hden']
    calc (2 : ℚ) ^ ((num.log2 : Int) - den.log2 - 1) * den
        ≤ 2 ^ ((num.log2 : Int) - den.log2 - 1) * 2 ^ (den.log2 + 1) := by gcongr
      _ = 2 ^ num.log2 := zpow_mul_pow (by push_cast; ring)
      _ ≤ num := hn
  have hupper : (num : ℚ) / den < 2 ^ ((num.log2 : Int) - den.log2 + 1) := by
    rw [div_lt_iff₀ hden']
    calc (num : ℚ) < 2 ^ (num.log2 + 1) := hn'
      _ = 2 ^ ((num.log2 : Int) - den.log2 + 1) * 2 ^ den.log2 :=
          (zpow_mul_pow (by push_cast; ring)).symm
      _ ≤ 2 ^ ((num.log2 : Int) - den.log2 + 1) * den := by gcongr
  have htest : 1 * (den * 2 ^ ((num.log2 : Int) - den.log2).toNat) ≤
        num * 2 ^ (-((num.log2 : Int) - den.log2)).toNat ↔
      ((1 : Nat) : ℚ) * 2 ^ ((num.log2 : Int) - den.log2) ≤ num / den := mul_le_iff hden 1 _
  rw [one_mul, Nat.cast_one, one_mul] at htest
  unfold floorLog
  simp only [Nat.pow_eq, htest]
  split
  · next h => exact ⟨h, hupper⟩
  · next h =>
    rw [sub_add_cancel]
    exact ⟨hlower, not_le.1 h⟩

/-- There is only one such power of two. -/
theorem floorLog_unique (hnum : num ≠ 0) (hden : den ≠ 0) {k : Int}
    (hlower : (2 : ℚ) ^ k ≤ num / den) (hupper : (num : ℚ) / den < 2 ^ (k + 1)) :
    floorLog num den = k := by
  obtain ⟨hle, hlt⟩ := floorLog_spec hnum hden
  have h₁ : k < floorLog num den + 1 :=
    (zpow_lt_zpow_iff_right₀ one_lt_two).1 (lt_of_le_of_lt hlower hlt)
  have h₂ : floorLog num den < k + 1 :=
    (zpow_lt_zpow_iff_right₀ one_lt_two).1 (lt_of_le_of_lt hle hupper)
  omega

/-! ## The nearest natural number -/

theorem le_roundDiv {k : Nat} (hden : den ≠ 0) (h : k * den ≤ num) : k ≤ roundDiv num den := by
  have hquotient : k ≤ num / den := (Nat.le_div_iff_mul_le (Nat.pos_of_ne_zero hden)).2 h
  unfold roundDiv
  dsimp only
  split
  · omega
  · split
    · omega
    · split <;> omega

theorem roundDiv_le {k : Nat} (hden : den ≠ 0) (h : num ≤ k * den) : roundDiv num den ≤ k := by
  have hquotient : num / den ≤ k := Nat.div_le_of_le_mul (by rwa [Nat.mul_comm])
  rcases Nat.lt_or_eq_of_le hquotient with hlt | heq
  · unfold roundDiv
    dsimp only
    split
    · omega
    · split
      · omega
      · split <;> omega
  · -- nothing is left over, so nothing is rounded up
    have hmod : num % den = 0 := by
      have hdiv := Nat.div_add_mod num den
      rw [heq, Nat.mul_comm] at hdiv
      omega
    unfold roundDiv
    dsimp only
    rw [hmod, heq, if_pos (by omega)]

/-! ## Rounding -/

/-- The exponent of the nearest number, before rounding. -/
def gridExponent (num den : Nat) : Int :=
  if floorLog num den - (mantissaBits - 1 : Nat) ≤ minExponent then minExponent
  else floorLog num den - (mantissaBits - 1 : Nat)

/-- The mantissa of the nearest number, before it is known to be short enough. -/
def gridMantissa (num den : Nat) : Nat :=
  roundDiv (num * 2 ^ (-gridExponent num den).toNat) (den * 2 ^ (gridExponent num den).toNat)

theorem ofRatio_eq (hnum : num ≠ 0) : ofRatio num den =
    if gridMantissa num den = 2 ^ mantissaBits then
      bounded (2 ^ (mantissaBits - 1)) (gridExponent num den + 1)
    else bounded (gridMantissa num den) (gridExponent num den) := by
  rw [ofRatio, if_neg hnum]
  rfl

theorem gridMantissa_le (hnum : num ≠ 0) (hden : den ≠ 0) :
    gridMantissa num den ≤ 2 ^ mantissaBits := by
  have hscaled : den * 2 ^ (gridExponent num den).toNat ≠ 0 := by positivity
  refine roundDiv_le hscaled ((le_mul_iff hden _ _).2 ?_)
  have hupper := (floorLog_spec hnum hden).2
  have hle : floorLog num den + 1 ≤ mantissaBits + gridExponent num den := by
    unfold gridExponent mantissaBits
    split <;> omega
  calc (num : ℚ) / den ≤ 2 ^ (floorLog num den + 1) := le_of_lt hupper
    _ ≤ 2 ^ ((mantissaBits : Int) + gridExponent num den) := zpow_le_zpow_right₀ one_le_two hle
    _ = ((2 ^ mantissaBits : Nat) : ℚ) * 2 ^ gridExponent num den := by
        rw [zpow_add₀ two_ne_zero, zpow_natCast]
        push_cast
        rfl

/-- Above the smallest exponent the mantissa has full length. -/
theorem le_gridMantissa (hnum : num ≠ 0) (hden : den ≠ 0)
    (h : gridExponent num den ≠ minExponent) : 2 ^ (mantissaBits - 1) ≤ gridMantissa num den := by
  have hscaled : den * 2 ^ (gridExponent num den).toNat ≠ 0 := by positivity
  refine le_roundDiv hscaled ((mul_le_iff hden _ _).2 ?_)
  have hlower := (floorLog_spec hnum hden).1
  have heq : ((mantissaBits - 1 : Nat) : Int) + gridExponent num den = floorLog num den := by
    unfold gridExponent at h ⊢
    split
    · next hle => exact absurd (if_pos hle) h
    · omega
  calc ((2 ^ (mantissaBits - 1) : Nat) : ℚ) * 2 ^ gridExponent num den
      = 2 ^ (((mantissaBits - 1 : Nat) : Int) + gridExponent num den) := by
        rw [zpow_add₀ two_ne_zero, zpow_natCast]
        push_cast
        rfl
    _ = 2 ^ floorLog num den := by rw [heq]
    _ ≤ num / den := hlower

theorem minExponent_le_gridExponent (num den : Nat) : minExponent ≤ gridExponent num den := by
  unfold gridExponent
  split <;> omega

/-- A finite number that a fraction is rounded to is canonical. -/
theorem ofRatio_canonical (hden : den ≠ 0) {negative : Bool} {m : Nat} {e : Int}
    (h : ofRatio num den = .finite negative m e) : negative = false ∧ Canonical m e := by
  by_cases hnum : num = 0
  · rw [ofRatio, if_pos hnum] at h
    cases h
    exact ⟨rfl, by decide, by decide, by decide, .inr rfl⟩
  · have hmin := minExponent_le_gridExponent num den
    have hle := gridMantissa_le hnum hden
    have hfull := le_gridMantissa hnum hden
    rw [ofRatio_eq hnum] at h
    unfold bounded at h
    split at h
    · split at h
      · cases h
      · next hmax =>
        cases h
        exact ⟨rfl, by omega, by omega, by decide, .inl (Nat.le_refl _)⟩
    · next hne =>
      split at h
      · cases h
      · next hmax =>
        cases h
        refine ⟨rfl, hmin, by omega, by omega, ?_⟩
        by_cases hgrid : gridExponent num den = minExponent
        · exact .inr hgrid
        · exact .inl (hfull hgrid)

theorem ofRatio_ne_nan (num den : Nat) : ofRatio num den ≠ .nan := by
  unfold ofRatio bounded
  dsimp only
  repeat' split
  all_goals simp

section Exact

variable {m : Nat} {e : Int}

theorem floorLog_of_eq (hnum : num ≠ 0) (hden : den ≠ 0) (hm : m ≠ 0)
    (heq : (num : ℚ) / den = m * 2 ^ e) : floorLog num den = m.log2 + e := by
  have hlower : (2 : ℚ) ^ m.log2 ≤ m := by exact_mod_cast Nat.log2_self_le hm
  have hupper : (m : ℚ) < 2 ^ (m.log2 + 1) := by exact_mod_cast Nat.lt_log2_self
  refine floorLog_unique hnum hden ?_ ?_
  · rw [heq, zpow_add₀ two_ne_zero, zpow_natCast]
    gcongr
  · have hsum : (m.log2 : Int) + e + 1 = ((m.log2 + 1 : Nat) : Int) + e := by
      push_cast
      ring
    rw [heq, hsum, zpow_add₀ two_ne_zero, zpow_natCast]
    gcongr

theorem gridExponent_of_eq (hnum : num ≠ 0) (hden : den ≠ 0) (hm : m ≠ 0) (h : Canonical m e)
    (heq : (num : ℚ) / den = m * 2 ^ e) : gridExponent num den = e := by
  have hlog := floorLog_of_eq hnum hden hm heq
  have hmin := h.min_le
  have hlt : m.log2 < 53 := (Nat.log2_lt hm).2 h.lt_full
  unfold gridExponent
  rw [hlog]
  unfold mantissaBits
  rcases h.full with hfull | he
  · have hle : 52 ≤ m.log2 := (Nat.le_log2 hm).2 hfull
    split <;> omega
  · split <;> omega

/-- A fraction that is a number already is not changed. -/
theorem ofRatio_of_eq (hden : den ≠ 0) (hm : m ≠ 0) (h : Canonical m e)
    (heq : (num : ℚ) / den = m * 2 ^ e) : ofRatio num den = .finite false m e := by
  have hnum : num ≠ 0 := by
    rintro rfl
    rw [Nat.cast_zero, zero_div] at heq
    have hpos : (0 : ℚ) < m * 2 ^ e := by positivity
    exact absurd heq (ne_of_lt hpos)
  have hgrid := gridExponent_of_eq hnum hden hm h heq
  have hmantissa : gridMantissa num den = m := by
    have hscaled : den * 2 ^ e.toNat ≠ 0 := by positivity
    rw [gridMantissa, hgrid]
    exact Nat.le_antisymm (roundDiv_le hscaled ((le_mul_iff hden m e).2 (le_of_eq heq)))
      (le_roundDiv hscaled ((mul_le_iff hden m e).2 (le_of_eq heq.symm)))
  have hlt := h.lt_full
  have hmax := h.le_max
  rw [ofRatio_eq hnum, hmantissa, hgrid, if_neg (by omega), bounded, if_neg (by omega)]

end Exact

end Resin.Number
