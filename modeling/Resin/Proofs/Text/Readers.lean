import Mathlib.Algebra.Group.Nat.Defs
import Mathlib.Algebra.Ring.Int.Defs
import Resin.Proofs.Script.Partition
import Resin.Text.Integer

/-!
# What the readers of a text accept

Cutting a text at a character, trimming it, and reading it as a decimal integer, each said by what
stands behind what. An integer of a text is a run of digits, with a sign in front if need be, whose
value fits the word; `Unsigned` and `IsSigned` say so without the readers, and the readers accept
exactly these texts.
-/

namespace Resin.Text

variable {cs : List Char}

/-! ## Cutting -/

/-- A text is cut at the first occurrence of a character. -/
theorem cut?_char_eq_some_iff {mark : Char} {before after : List Char} :
    cut? [mark] cs = some (before, after) ↔ cs = before ++ mark :: after ∧ mark ∉ before := by
  constructor
  · intro h
    refine ⟨by simpa using eq_append_of_cut? h, ?_⟩
    induction cs generalizing before with
    | nil => cases h
    | cons c cs ih =>
      rw [cut?] at h
      split at h
      · cases h
        simp
      · next hc =>
        obtain ⟨⟨b, a⟩, hcut, heq⟩ := Option.map_eq_some_iff.1 h
        cases heq
        rw [List.mem_cons, not_or]
        refine ⟨?_, ih hcut⟩
        rintro rfl
        simp at hc
  · rintro ⟨rfl, hmark⟩
    refine @cut?_append [mark] _ _ (by simp) fun hin => hmark ?_
    simpa using hin.subset (List.mem_singleton_self mark)

/-! ## Trimming -/

/-- All characters are blanks. -/
def Blanks (cs : List Char) : Prop :=
  ∀ c ∈ cs, isBlank c = true

/-- The text is `core` with blanks around it, and `core` has none at its ends. -/
def Trims (cs core : List Char) : Prop :=
  ∃ left right, cs = left ++ (core ++ right) ∧ Blanks left ∧ Blanks right ∧ Trimmed core

theorem trim_eq_iff {core : List Char} : trim cs = core ↔ Trims cs core := by
  constructor
  · rintro rfl
    obtain ⟨right, hcs, hblank, htrimmed, -⟩ := strips_trim cs
    rw [List.forall_mem_append] at hblank
    exact ⟨_, right, hcs, hblank.1, hblank.2, htrimmed⟩
  · rintro ⟨left, right, rfl, hleft, hright, htrimmed⟩
    cases core with
    | nil =>
      -- with nothing between them, all blanks stand in front
      have hstrips : Strips (left ++ right) (left ++ right) [] :=
        ⟨[], by simp, by simpa using List.forall_mem_append.2 ⟨hleft, hright⟩, htrimmed,
          fun _ => rfl⟩
      exact hstrips.eq.2.symm
    | cons c core =>
      have hstrips : Strips (left ++ (c :: core ++ right)) left (c :: core) :=
        ⟨right, rfl, List.forall_mem_append.2 ⟨hleft, hright⟩, htrimmed, by simp⟩
      exact hstrips.eq.2.symm

theorem trimmed_trim (cs : List Char) : Trimmed (trim cs) := by
  obtain ⟨_, _, _, _, _, h⟩ := trim_eq_iff.1 (rfl : trim cs = _)
  exact h

theorem Trims.around {core l r : List Char} (h : Trims cs core) (hl : Blanks l) (hr : Blanks r) :
    Trims (l ++ (cs ++ r)) core := by
  obtain ⟨left, right, rfl, hleft, hright, hcore⟩ := h
  exact ⟨l ++ left, right ++ r, by simp, List.forall_mem_append.2 ⟨hl, hleft⟩,
    List.forall_mem_append.2 ⟨hright, hr⟩, hcore⟩

/-! ## Decimal integers -/

/-- The text is one or more decimal digits. -/
structure IsDigits (cs : List Char) : Prop where
  ne_nil : cs ≠ []
  isDigit : ∀ c ∈ cs, c.isDigit = true

/-- The text is digits of a value, perhaps with a plus sign in front. -/
inductive Unsigned : List Char → Nat → Prop
  | bare {digits : List Char} : IsDigits digits → Unsigned digits (digitsValue digits)
  | plus {digits : List Char} : IsDigits digits → Unsigned ('+' :: digits) (digitsValue digits)

/-- The text is digits of a value, perhaps with a sign in front. -/
inductive IsSigned : List Char → Int → Prop
  | unsigned {cs : List Char} {n : Nat} : Unsigned cs n → IsSigned cs n
  | minus {digits : List Char} : IsDigits digits →
    IsSigned ('-' :: digits) (-(digitsValue digits))

/-- The text is an integer from `-2 ^ 63` below `2 ^ 63`. -/
structure Signed64 (cs : List Char) (i : Int) : Prop where
  signed : IsSigned cs i
  le : -2 ^ 63 ≤ i
  lt : i < 2 ^ 63

theorem digits?_eq_some_iff {n : Nat} :
    digits? cs = some n ↔ IsDigits cs ∧ n = digitsValue cs := by
  unfold digits?
  split
  · next h =>
    refine iff_of_false (by simp) fun ⟨hdigits, _⟩ => ?_
    rcases Bool.or_eq_true_iff.1 h with hempty | hother
    · exact hdigits.ne_nil (List.isEmpty_iff.1 hempty)
    · rw [List.all_eq_true.2 hdigits.isDigit] at hother
      cases hother
  · next h =>
    rw [Bool.not_eq_true, Bool.or_eq_false_iff, Bool.not_eq_false'] at h
    have hdigits : IsDigits cs :=
      ⟨List.isEmpty_eq_false_iff.1 h.1, List.all_eq_true.1 h.2⟩
    simp [hdigits, eq_comm]

theorem unsigned_iff {n : Nat} : Unsigned cs n ↔
    (∃ digits, cs = '+' :: digits ∧ digits? digits = some n) ∨ digits? cs = some n := by
  constructor
  · rintro (hdigits | hdigits)
    · exact .inr (digits?_eq_some_iff.2 ⟨hdigits, rfl⟩)
    · exact .inl ⟨_, rfl, digits?_eq_some_iff.2 ⟨hdigits, rfl⟩⟩
  · rintro (⟨digits, rfl, h⟩ | h)
    · obtain ⟨hdigits, rfl⟩ := digits?_eq_some_iff.1 h
      exact .plus hdigits
    · obtain ⟨hdigits, rfl⟩ := digits?_eq_some_iff.1 h
      exact .bare hdigits

theorem digits?_cons_eq_none {c : Char} (h : c.isDigit = false) : digits? (c :: cs) = none := by
  simp [digits?, h]

/-- Unsigned integers are read exactly if they are below `2 ^ 64`. -/
theorem unsigned64?_eq_some_iff {n : Nat} :
    unsigned64? cs = some n ↔ Unsigned cs n ∧ n < 2 ^ 64 := by
  unfold unsigned64?
  rw [unsigned_iff, Option.filter_eq_some_iff, decide_eq_true_eq]
  refine and_congr_left fun _ => ?_
  split
  · next rest => simp [digits?_cons_eq_none (c := '+') (by decide)]
  · next hplus =>
    refine ⟨.inr, ?_⟩
    rintro (⟨digits, rfl, -⟩ | h)
    · exact absurd rfl (hplus digits)
    · exact h

theorem signed_iff {i : Int} : IsSigned cs i ↔
    (∃ digits n, cs = '-' :: digits ∧ digits? digits = some n ∧ i = -(n : Int)) ∨
      ∃ n : Nat, Unsigned cs n ∧ i = n := by
  constructor
  · rintro (h | hdigits)
    · exact .inr ⟨_, h, rfl⟩
    · exact .inl ⟨_, _, rfl, digits?_eq_some_iff.2 ⟨hdigits, rfl⟩, rfl⟩
  · rintro (⟨digits, n, rfl, h, rfl⟩ | ⟨n, h, rfl⟩)
    · obtain ⟨hdigits, rfl⟩ := digits?_eq_some_iff.1 h
      exact .minus hdigits
    · exact .unsigned h

/-- Signed integers are read exactly if they fit 64 bits. -/
theorem signed64?_eq_some_iff {i : Int} : signed64? cs = some i ↔ Signed64 cs i := by
  have hfits : (Signed64 cs i) ↔ IsSigned cs i ∧ -2 ^ 63 ≤ i ∧ i < 2 ^ 63 :=
    ⟨fun h => ⟨h.signed, h.le, h.lt⟩, fun h => ⟨h.1, h.2.1, h.2.2⟩⟩
  unfold signed64?
  rw [hfits, signed_iff, Option.filter_eq_some_iff, Bool.and_eq_true, decide_eq_true_eq,
    decide_eq_true_eq]
  refine and_congr ?_ (by norm_cast)
  split
  · next rest =>
    cases h : digits? rest <;>
      simp [unsigned_iff, digits?_cons_eq_none (c := '-') (by decide), h, eq_comm]
  · next rest =>
    cases h : digits? rest <;>
      simp [unsigned_iff, digits?_cons_eq_none (c := '+') (by decide), h, eq_comm]
  · next hminus hplus =>
    have hminus : ∀ rest, cs ≠ '-' :: rest := hminus
    have hplus : ∀ rest, cs ≠ '+' :: rest := hplus
    cases h : digits? cs <;> simp [unsigned_iff, h, hminus, hplus, eq_comm (b := i)]

end Resin.Text
