import Resin.Proofs.Number.Rounding

/-!
# The text of a number reads back

A number is written with the fewest digits that read back to it. That there are such digits at all
is a property of rounding: the exact decimal expansion of a number reads back
(`ofDecimal_expansion`). So the text of every finite number that a literal can have is a numeral for
this number (`numeral_text`).
-/

namespace Resin.Number

open Text

/-- The text is a decimal numeral, without needless zeros in front, that is read as the number. -/
def Numeral (v : Number) (text : List Char) : Prop :=
  ∃ first whole, first.isDigit = true ∧ (∀ c ∈ whole, c.isDigit = true) ∧
    (first = '0' → whole = []) ∧
    (text = first :: whole ∧ v = .ofParts (first :: whole) [] ∨
      ∃ fraction, (∀ c ∈ fraction, c.isDigit = true) ∧
        text = first :: whole ++ '.' :: fraction ∧ v = .ofParts (first :: whole) fraction)

/-! ## Digits that read back -/

/-- The exact decimal expansion of a number reads back. -/
theorem ofDecimal_expansion {m : Nat} {e : Int} (hm : m ≠ 0) (h : Canonical m e) :
    ofDecimal (expansion m e).1 (expansion m e).2 = .finite false m e := by
  unfold ofDecimal expansion
  simp only [Nat.pow_eq]
  refine ofRatio_of_eq (by positivity) hm h ?_
  rw [two_zpow]
  split
  · next he =>
    have hpos : e.toNat = 0 := by omega
    rw [hpos]
    push_cast
    rw [show (10 : ℚ) = 5 * 2 by norm_num, mul_pow]
    field_simp
  · next he =>
    have hneg : (-e).toNat = 0 := by omega
    rw [hneg]
    simp

/-- Digits that read back still do when as many of them as possible are rounded away. -/
theorem ofDecimal_shorten {target : Number} {digits : Nat} {exponent : Int}
    (h : ofDecimal digits exponent = target) (dropped : Nat) :
    ofDecimal (shorten target digits exponent dropped).1
      (shorten target digits exponent dropped).2 = target := by
  induction dropped with
  | zero => exact h
  | succ dropped ih =>
    unfold shorten
    dsimp only
    split
    · next hlower => exact hlower.1
    · split
      · next hupper => exact hupper
      · exact ih

theorem ofDecimal_shortest {m : Nat} {e : Int} (hm : m ≠ 0) (h : Canonical m e) :
    ofDecimal (shortest m e).1 (shortest m e).2 = .finite false m e :=
  ofDecimal_shorten (ofDecimal_expansion hm h) _

/-! ## Numerals -/

theorem digitsValue_eq (cs : List Char) : digitsValue cs = Nat.ofDigitChars 10 cs 0 :=
  Nat.ofDigitChars_eq_foldl.symm

theorem head?_toDigits_ne_zero {n : Nat} (hn : n ≠ 0) : (Nat.toDigits 10 n).head? ≠ some '0' := by
  induction n using Nat.strongRecOn with
  | ind n ih =>
    by_cases hlt : n < 10
    · rw [Nat.toDigits_of_lt_base hlt]
      simpa using hn
    · rw [Nat.toDigits_of_base_le (by decide) (by omega),
        List.head?_append_of_ne_nil _ Nat.toDigits_ne_nil]
      exact ih (n / 10) (by omega) (by omega)

theorem isDigit_of_mem_replicate {n : Nat} {c : Char} (h : c ∈ List.replicate n '0') :
    c.isDigit = true := by
  rw [List.eq_of_mem_replicate h]
  rfl

theorem isDigit_of_mem_toDigits {n : Nat} {c : Char} (h : c ∈ Nat.toDigits 10 n) :
    c.isDigit = true :=
  Nat.isDigit_of_mem_toDigits (by decide) (by decide) h

/-- A run of digits with a point before the last `places` of them. -/
theorem numeral_point {padded : List Char} {places : Nat} (hlen : places < padded.length)
    (hall : ∀ c ∈ padded, c.isDigit = true)
    (hzero : padded.head? = some '0' → padded.length = places + 1) :
    (ofDecimal (digitsValue padded) (-(places : Int))).Numeral
      (padded.take (padded.length - places) ++ '.' :: padded.drop (padded.length - places)) := by
  have hsplit := List.take_append_drop (padded.length - places) padded
  cases htake : padded.take (padded.length - places) with
  | nil =>
    have hnil := congrArg List.length htake
    rw [List.length_take, List.length_nil] at hnil
    omega
  | cons first whole =>
    rw [htake] at hsplit
    have hmem : ∀ c ∈ first :: whole ++ padded.drop (padded.length - places),
        c.isDigit = true := by rwa [hsplit]
    refine ⟨first, whole, hmem first (by simp), fun c hc => hmem c (by simp [hc]), ?_,
      .inr ⟨padded.drop (padded.length - places), fun c hc => hmem c (by simp [hc]), rfl, ?_⟩⟩
    · rintro rfl
      have hhead : padded.head? = some '0' := by
        rw [← hsplit]
        rfl
      have hone := congrArg List.length htake
      rw [List.length_take, hzero hhead, List.length_cons] at hone
      exact List.eq_nil_of_length_eq_zero (by omega)
    · have hplaces : (padded.drop (padded.length - places)).length = places := by
        rw [List.length_drop]
        omega
      rw [ofParts, hsplit, hplaces]

/-- The positional text of a decimal is a numeral for the number that the decimal is read as. -/
theorem numeral_positional {digits : Nat} (hdigits : digits ≠ 0) (exponent : Int) :
    (ofDecimal digits exponent).Numeral (positional digits exponent) := by
  have hhead := head?_toDigits_ne_zero hdigits
  have hvalue : Nat.ofDigitChars 10 (Nat.toDigits 10 digits) 0 = digits :=
    Nat.ofDigitChars_ten_toDigits
  have hall : ∀ c ∈ Nat.toDigits 10 digits, c.isDigit = true := fun c => isDigit_of_mem_toDigits
  have hne : Nat.toDigits 10 digits ≠ [] := Nat.toDigits_ne_nil
  unfold positional
  dsimp only
  generalize Nat.toDigits 10 digits = figures at hhead hvalue hall hne
  split
  · next hpos =>
    obtain ⟨first, rest, rfl⟩ := List.exists_cons_of_ne_nil hne
    refine ⟨first, rest ++ List.replicate exponent.toNat '0', hall _ (List.mem_cons_self ..), ?_,
      ?_, .inl ⟨rfl, ?_⟩⟩
    · intro c hc
      rcases List.mem_append.1 hc with hc | hc
      · exact hall c (List.mem_cons_of_mem _ hc)
      · exact isDigit_of_mem_replicate hc
    · rintro rfl
      exact absurd rfl hhead
    · have hneg : (-exponent).toNat = 0 := by omega
      rw [ofParts, List.append_nil, digitsValue_eq, ← List.cons_append, Nat.ofDigitChars_append,
        hvalue, Nat.ofDigitChars_replicate_zero]
      simp only [ofDecimal, hneg, List.length_nil]
      congr 1
      simp [Nat.mul_comm]
  · next hneg =>
    -- zeros in front do not change the value, and there is only one before the point
    let padded := List.replicate ((-exponent).toNat + 1 - figures.length) '0' ++ figures
    have hlength : padded.length = (-exponent).toNat + 1 - figures.length + figures.length := by
      rw [List.length_append, List.length_replicate]
    have hlen : (-exponent).toNat < padded.length := by omega
    have hdigit : ∀ c ∈ padded, c.isDigit = true := by
      intro c hc
      rcases List.mem_append.1 hc with hc | hc
      · exact isDigit_of_mem_replicate hc
      · exact hall c hc
    have hzero : padded.head? = some '0' → padded.length = (-exponent).toNat + 1 := by
      intro hzero
      by_cases hnone : (-exponent).toNat + 1 - figures.length = 0
      · have hsame : padded = figures := by simp [padded, hnone]
        exact absurd (hsame ▸ hzero) hhead
      · omega
    have hnumeral := numeral_point hlen hdigit hzero
    have hpadded : digitsValue padded = digits := by
      rw [digitsValue_eq, Nat.ofDigitChars_append, Nat.ofDigitChars_replicate_zero, Nat.mul_zero,
        hvalue]
    have hexponent : -(((-exponent).toNat : Nat) : Int) = exponent := by omega
    rwa [hpadded, hexponent] at hnumeral

theorem ofDecimal_zero (exponent : Int) : ofDecimal 0 exponent = .finite false 0 minExponent := by
  rw [ofDecimal, Nat.zero_mul, ofRatio, if_pos rfl]

/-- The text of a number that is not negative and of canonical form is a numeral for it. -/
theorem numeral_text {m : Nat} {e : Int} (h : Canonical m e) :
    (Number.finite false m e).Numeral (Number.finite false m e).text.toList := by
  simp only [text, isNegative, Bool.false_eq_true, if_false, String.toList_ofList, magnitudeText]
  split
  · next hm =>
    obtain rfl := hm
    obtain rfl : e = minExponent := h.full.resolve_left (by decide)
    exact ⟨'0', [], rfl, by simp, fun _ => rfl, .inl ⟨rfl, (ofDecimal_zero _).symm⟩⟩
  · next hm =>
    have hread := ofDecimal_shortest hm h
    have hdigits : (shortest m e).1 ≠ 0 := by
      intro hzero
      rw [hzero, ofDecimal_zero] at hread
      cases hread
      exact hm rfl
    rw [← hread]
    exact numeral_positional hdigits _

theorem ofRatio_ne_infinite_true (num den : Nat) : ofRatio num den ≠ .infinite true := by
  unfold ofRatio bounded
  dsimp only
  repeat' split
  all_goals simp

/-- What a decimal is read as, unless it is too large, is written as a numeral for it. -/
theorem numeral_of_ofParts {v : Number} {whole fraction : List Char}
    (hv : v = .ofParts whole fraction) (hfinite : ∀ negative, v ≠ .infinite negative) :
    v.Numeral v.text.toList := by
  cases v with
  | finite negative m e =>
    obtain ⟨rfl, hcanonical⟩ := ofRatio_canonical (Nat.ne_of_gt (Nat.pow_pos (by decide))) hv.symm
    exact numeral_text hcanonical
  | infinite negative => exact absurd rfl (hfinite negative)
  | nan => exact absurd hv.symm (ofRatio_ne_nan _ _)

end Resin.Number
