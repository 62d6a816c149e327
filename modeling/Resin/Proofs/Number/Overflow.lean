import Mathlib.Data.List.TakeWhile
import Resin.Proofs.Number.Text
import Resin.Proofs.Print.Spelling

/-!
# Decimals that are too large

A fraction is rounded to an infinite number exactly if it is at least `overflowBound`, which lies
halfway between the largest finite number and the power of two behind it. The largest finite number
has an odd mantissa, so the bound itself is rounded up. A decimal below the bound is written as a
numeral, and one that is not below it by the word `inf` (`ofParts_text`). `TooLarge` says of the
text of a literal that it is not below the bound.
-/

namespace Resin.Number

open Text

/-- The least value that is rounded to an infinite number. -/
def overflowBound : Nat := (2 ^ 54 - 1) * 2 ^ 970

variable {num den : Nat}

/-! ## The nearest natural number -/

/-- Between two neighbours the quotient is the lower one, and twice the rest tells which is
nearer. -/
theorem div_mod_of_between {k : Nat} (hlower : k * den ≤ num) (hupper : num < (k + 1) * den) :
    num / den = k ∧ 2 * (num % den) = 2 * num - 2 * (k * den) := by
  have hquotient : num / den = k := Nat.div_eq_of_lt_le hlower hupper
  have hdiv := Nat.div_add_mod num den
  rw [hquotient, Nat.mul_comm] at hdiv
  exact ⟨hquotient, by omega⟩

/-- A half above an odd number is rounded up. -/
theorem succ_le_roundDiv {k : Nat} (hden : den ≠ 0) (hk : k % 2 = 1)
    (h : (2 * k + 1) * den ≤ 2 * num) : k + 1 ≤ roundDiv num den := by
  rw [Nat.add_mul, Nat.mul_assoc, Nat.one_mul] at h
  rcases Nat.lt_or_ge num ((k + 1) * den) with hlt | hge
  · obtain ⟨hquotient, htwice⟩ := div_mod_of_between (by omega) hlt
    unfold roundDiv
    dsimp only
    rw [hquotient, htwice, if_neg (by omega)]
    split
    · exact Nat.le_refl _
    · rw [if_neg (by omega)]
  · exact le_roundDiv hden hge

/-- What is nearer to a number than to the next one is not rounded up. -/
theorem roundDiv_le_of_lt {k : Nat} (hden : den ≠ 0) (h : 2 * num < (2 * k + 1) * den) :
    roundDiv num den ≤ k := by
  rw [Nat.add_mul, Nat.mul_assoc, Nat.one_mul] at h
  rcases Nat.le_total num (k * den) with hle | hge
  · exact roundDiv_le hden hle
  · obtain ⟨hquotient, htwice⟩ := div_mod_of_between hge (by rw [Nat.add_mul]; omega)
    unfold roundDiv
    dsimp only
    rw [hquotient, htwice, if_pos (by omega)]

/-! ## Fractions that are too large -/

theorem gridExponent_eq (hgrid : minExponent < gridExponent num den) :
    gridExponent num den + 52 = floorLog num den := by
  unfold gridExponent at hgrid ⊢
  split at hgrid
  · omega
  · next h =>
    rw [if_neg h]
    simp [mantissaBits]

/-- The mantissa at the largest exponent is full exactly above the bound. -/
theorem gridMantissa_eq_iff (hnum : num ≠ 0) (hden : den ≠ 0)
    (hgrid : gridExponent num den = maxExponent) :
    gridMantissa num den = 2 ^ mantissaBits ↔ overflowBound * den ≤ num := by
  have hle := gridMantissa_le hnum hden
  have hscaled : den * 2 ^ 971 ≠ 0 := by positivity
  have hbound : (2 * (2 ^ 53 - 1) + 1) * (den * 2 ^ 971) = 2 * (overflowBound * den) := by
    unfold overflowBound
    rw [pow_succ 2 970]
    generalize 2 ^ 970 = p
    ring
  have hmantissa : gridMantissa num den = roundDiv num (den * 2 ^ 971) := by
    have hzero : (-maxExponent).toNat = 0 := by decide
    have hmax : maxExponent.toNat = 971 := by decide
    rw [gridMantissa, hgrid, hzero, hmax, pow_zero, mul_one]
  rw [hmantissa] at hle ⊢
  constructor
  · intro heq
    by_contra hlt
    have hround := @roundDiv_le_of_lt num _ (2 ^ 53 - 1) hscaled (by omega)
    rw [heq] at hround
    exact absurd hround (by decide)
  · intro hge
    have hround := @succ_le_roundDiv num _ (2 ^ 53 - 1) hscaled (by decide) (by omega)
    exact Nat.le_antisymm hle hround

theorem overflowBound_mul_le_iff (hden : den ≠ 0) : overflowBound * den ≤ num ↔
    ((2 ^ 54 - 1 : Nat) : ℚ) * 2 ^ ((970 : Nat) : Int) ≤ num / den := by
  rw [← mul_le_iff hden, overflowBound, Int.toNat_natCast, Int.toNat_neg_natCast, pow_zero,
    mul_one, mul_assoc, Nat.mul_comm den]

/-- The bound lies between two powers of two. -/
theorem le_of_overflowBound_mul_le (hden : den ≠ 0) :
    (overflowBound * den ≤ num → (2 : ℚ) ^ (1023 : Int) ≤ num / den) ∧
      ((2 : ℚ) ^ (1024 : Int) ≤ num / den → overflowBound * den ≤ num) := by
  have hpos : (0 : ℚ) < 2 ^ ((970 : Nat) : Int) := by positivity
  have hlower : (2 : ℚ) ^ (1023 : Int) = 2 ^ 53 * 2 ^ ((970 : Nat) : Int) := by
    rw [← zpow_natCast 2 53, ← zpow_add₀ two_ne_zero]
    rfl
  have hupper : (2 : ℚ) ^ (1024 : Int) = 2 ^ 54 * 2 ^ ((970 : Nat) : Int) := by
    rw [← zpow_natCast 2 54, ← zpow_add₀ two_ne_zero]
    rfl
  rw [overflowBound_mul_le_iff hden, hlower, hupper]
  constructor
  · refine le_trans (mul_le_mul_of_nonneg_right ?_ hpos.le)
    norm_num
  · refine le_trans (mul_le_mul_of_nonneg_right ?_ hpos.le)
    norm_num

theorem le_floorLog_iff (hnum : num ≠ 0) (hden : den ≠ 0) (k : Int) :
    k ≤ floorLog num den ↔ (2 : ℚ) ^ k ≤ num / den := by
  obtain ⟨hle, hlt⟩ := floorLog_spec hnum hden
  constructor
  · intro h
    exact le_trans (zpow_le_zpow_right₀ one_le_two h) hle
  · intro h
    have hexponent := (zpow_lt_zpow_iff_right₀ one_lt_two).1 (lt_of_le_of_lt h hlt)
    omega

/-- A fraction is rounded to an infinite number exactly if it is not below the bound. -/
theorem ofRatio_eq_infinite_iff (hden : den ≠ 0) :
    ofRatio num den = .infinite false ↔ overflowBound * den ≤ num := by
  by_cases hnum : num = 0
  · subst hnum
    have hpos : 0 < overflowBound * den :=
      Nat.mul_pos (by unfold overflowBound; positivity) (Nat.pos_of_ne_zero hden)
    rw [ofRatio, if_pos rfl]
    exact iff_of_false (by simp) (by omega)
  obtain ⟨hlower, hupper⟩ := @le_of_overflowBound_mul_le num den hden
  rw [← le_floorLog_iff hnum hden] at hlower hupper
  have hgrid : floorLog num den - 52 ≤ gridExponent num den := by
    unfold gridExponent mantissaBits
    split <;> omega
  rw [ofRatio_eq hnum]
  unfold bounded
  rcases lt_trichotomy (gridExponent num den) maxExponent with hlt | heq | hgt
  · -- the next exponent is still one of a finite number
    have hnot : ¬ overflowBound * den ≤ num := fun hge => by
      have := hlower hge
      unfold maxExponent at hlt
      omega
    refine iff_of_false ?_ hnot
    split
    · rw [if_neg (by omega)]
      simp
    · rw [if_neg (by omega)]
      simp
  · rw [← gridMantissa_eq_iff hnum hden heq, heq]
    split
    · next hfull => simp [hfull]
    · next hfull => simp [hfull]
  · have hge : overflowBound * den ≤ num := by
      apply hupper
      unfold maxExponent at hgt
      have hlog := @gridExponent_eq num den (by unfold minExponent; omega)
      omega
    have hnext : maxExponent < gridExponent num den + 1 := by omega
    refine iff_of_true ?_ hge
    rw [if_pos hnext, if_pos hgt, ite_self]

/-- A decimal is read as an infinite number exactly if its value is not below the bound. -/
theorem ofParts_eq_infinite_iff (whole fraction : List Char) :
    ofParts whole fraction = .infinite false ↔
      overflowBound * 10 ^ fraction.length ≤ digitsValue (whole ++ fraction) := by
  have hten : (10 : Nat) ^ fraction.length ≠ 0 := by positivity
  rw [← ofRatio_eq_infinite_iff hten]
  show ofRatio (_ * Nat.pow 10 (-(fraction.length : Int)).toNat)
    (Nat.pow 10 (-(-(fraction.length : Int))).toNat) = _ ↔ _
  rw [Int.toNat_neg_natCast, neg_neg, Int.toNat_natCast, Nat.pow_eq, Nat.pow_eq, pow_zero, mul_one]

/-- A decimal below the bound is written as a numeral, and any other one by a word. -/
theorem ofParts_text (whole fraction : List Char) :
    (overflowBound * 10 ^ fraction.length ≤ digitsValue (whole ++ fraction) →
      (ofParts whole fraction).text = "inf") ∧
    (digitsValue (whole ++ fraction) < overflowBound * 10 ^ fraction.length →
      (ofParts whole fraction).Numeral (ofParts whole fraction).text.toList) := by
  have hiff := ofParts_eq_infinite_iff whole fraction
  constructor
  · intro h
    rw [hiff.2 h]
    rfl
  · intro h
    refine numeral_of_ofParts rfl fun negative heq => ?_
    cases negative with
    | false => exact absurd (hiff.1 heq) (Nat.not_le.2 h)
    | true => exact ofRatio_ne_infinite_true _ _ heq

/-! ## Literals -/

/-- A literal of digits, perhaps with a point, whose value is too large for a number. -/
def TooLarge (literal : List Char) : Prop :=
  overflowBound * 10 ^ ((literal.dropWhile (· != '.')).drop 1).length ≤
    digitsValue (literal.filter Char.isDigit)

instance (literal : List Char) : Decidable (TooLarge literal) :=
  inferInstanceAs (Decidable (_ ≤ _))

variable {v : Number} {literal : List Char}

theorem WrittenAs.exists_parts (h : v.WrittenAs literal) : ∃ whole fraction,
    v = .ofParts whole fraction ∧ (TooLarge literal ↔
      overflowBound * 10 ^ fraction.length ≤ digitsValue (whole ++ fraction)) := by
  obtain ⟨first, whole, hfirst, hwhole, h⟩ := h
  have hdigits : ∀ c ∈ first :: whole, c.isDigit = true := List.forall_mem_cons.2 ⟨hfirst, hwhole⟩
  have hpoint : ∀ c ∈ first :: whole, (c != '.') = true := by
    intro c hc
    rw [bne_iff_ne]
    rintro rfl
    exact absurd (hdigits '.' hc) (by decide)
  have hfilter := List.filter_eq_self.2 hdigits
  rcases h with ⟨rfl, hv⟩ | ⟨fraction, hfraction, rfl, hv⟩
  · refine ⟨_, _, hv, ?_⟩
    rw [TooLarge, List.dropWhile_eq_nil_iff.2 hpoint, hfilter, List.append_nil, List.drop_nil]
  · refine ⟨_, _, hv, ?_⟩
    rw [TooLarge, List.dropWhile_append_of_pos hpoint, List.dropWhile_cons_of_neg (by decide),
      List.drop_one, List.tail_cons, List.filter_append, hfilter,
      List.filter_cons_of_neg (by decide), List.filter_eq_self.2 hfraction]

theorem WrittenAs.text_of_tooLarge (h : v.WrittenAs literal) (hlarge : TooLarge literal) :
    v.text = "inf" := by
  obtain ⟨whole, fraction, rfl, hiff⟩ := h.exists_parts
  exact (ofParts_text whole fraction).1 (hiff.1 hlarge)

theorem WrittenAs.numeral (h : v.WrittenAs literal) (hlarge : ¬ TooLarge literal) :
    v.Numeral v.text.toList := by
  obtain ⟨whole, fraction, rfl, hiff⟩ := h.exists_parts
  exact (ofParts_text whole fraction).2 (Nat.lt_of_not_le (mt hiff.2 hlarge))

end Resin.Number
