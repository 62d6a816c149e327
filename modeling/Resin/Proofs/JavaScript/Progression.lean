import Mathlib.Algebra.Order.Group.Unbundled.Int
import Resin.Proofs.JavaScript.Loop

/-!
# Loops over a range

A loop over a range tests in each of its clauses whether its first bound is at most its last one. As
long as the bounds and the step keep their values, it counts up or down by the magnitude of the step
until it passes the last bound (`Loop.Steady.exists_runs`), so its body is run for an arithmetic
progression (`Loop.getElem?_progression`), at least once. The magnitude is taken from `Math`: a loop
in which this name is hidden fails behind its first turn (`Loop.Steady.runs_of_hidden`).
-/

namespace Resin.JavaScript

variable {World : Type}

namespace Loop

/-- The loop over a range. Its counter goes up if the first bound is at most the last one, and else
down, by the magnitude of the step. -/
def range (counter first last step : String) : Loop :=
  let first := Term.ofText first
  let last := Term.ofText last
  let step := Term.ofText step
  let up := Term.compare .atMost first last
  { counter
    first := .choice up first first
    test := .choice up (.compare .atMost (.operand counter) last)
      (.compare .atLeast (.operand counter) last)
    step := .choice up (.magnitude step) (.negative (.magnitude step)) }

/-! ## The values of the counter -/

/-- The value of the counter after so many turns. -/
def value (first last step : Int) (turns : Nat) : Int :=
  if first ≤ last then first + turns * step.natAbs else first - turns * step.natAbs

/-- How often the body is run. -/
def count (first last step : Int) : Nat :=
  (last - first).natAbs / step.natAbs + 1

/-- The values of the counter for which the body is run. -/
def progression (first last step : Int) : List Int :=
  (List.range (count first last step)).map (value first last step)

/-- Between two bounds, in whatever order they are given. -/
def Between (first last x : Int) : Prop :=
  min first last ≤ x ∧ x ≤ max first last

/-- On the way from the first bound the last one is not passed yet. -/
def UpTo (first last x : Int) : Prop :=
  if first ≤ last then x ≤ last else last ≤ x

instance (first last x : Int) : Decidable (UpTo first last x) :=
  inferInstanceAs (Decidable (if first ≤ last then x ≤ last else last ≤ x))

/-- What a loop over a range adds to its counter. -/
def change (first last step : Int) : Int :=
  if first ≤ last then step.natAbs else -step.natAbs

theorem lt_count_iff {first last step : Int} (hstep : step ≠ 0) (k : Nat) :
    k < count first last step ↔ UpTo first last (value first last step k) := by
  have hpos : 0 < step.natAbs := Int.natAbs_pos.2 hstep
  rw [count, Nat.lt_succ_iff, Nat.le_div_iff_mul_le hpos, UpTo, value]
  have hcast : ((k * step.natAbs : Nat) : Int) = k * step.natAbs := Int.natCast_mul ..
  split <;> omega

theorem value_zero (first last step : Int) : value first last step 0 = first := by
  simp [value]

theorem value_succ (first last step : Int) (k : Nat) :
    value first last step (k + 1) = value first last step k + change first last step := by
  have hcast : ((k + 1 : Nat) : Int) * step.natAbs = k * step.natAbs + step.natAbs := by
    rw [Nat.cast_add, Nat.cast_one, add_mul, one_mul]
  unfold value change
  split <;> omega

theorem between_value {first last step : Int} {k : Nat} (hstep : step ≠ 0)
    (hk : k < count first last step) : Between first last (value first last step k) := by
  have hlast := (lt_count_iff hstep k).1 hk
  have hpos : (0 : Int) ≤ k * step.natAbs :=
    Int.mul_nonneg (Int.natCast_nonneg k) (Int.natCast_nonneg _)
  unfold Between
  by_cases hup : first ≤ last
  · rw [UpTo, if_pos hup, value, if_pos hup] at hlast
    rw [value, if_pos hup]
    omega
  · rw [UpTo, if_neg hup, value, if_neg hup] at hlast
    rw [value, if_neg hup]
    omega

theorem getElem?_progression {first last step : Int} (hstep : step ≠ 0) (k : Nat) :
    (progression first last step)[k]? =
      if first ≤ last then
        if first + k * step.natAbs ≤ last then some (first + k * step.natAbs) else none
      else if last ≤ first - k * step.natAbs then some (first - k * step.natAbs) else none := by
  have hlt : k < count first last step ↔ UpTo first last (value first last step k) :=
    lt_count_iff hstep k
  rw [progression, List.getElem?_map]
  by_cases hk : k < count first last step
  · rw [List.getElem?_range hk, Option.map_some]
    rw [iff_true_left hk] at hlt
    unfold UpTo value at hlt
    unfold value
    split <;> simp_all
  · rw [List.getElem?_eq_none (by simpa using hk), Option.map_none]
    rw [iff_false_left hk] at hlt
    unfold UpTo value at hlt
    split <;> simp_all

/-- Throughout a loop over a range its bounds and its step have fixed values. `holds` is what is
known of the world for a value of the counter, if it has one already: it is enough for the values,
and neither taking a value nor the body nor going on to the next value changes it. -/
structure Steady (around : Surroundings World) (body : Int → World → World)
    (counter first last step : String) (holds : Option Int → World → Prop) (a z d : Int) :
    Prop where
  first : ∀ x w, holds x w →
    ∃ w', (Term.ofText first).eval around counter x w = some (.int a, w') ∧ holds x w'
  last : ∀ x w, holds x w →
    ∃ w', (Term.ofText last).eval around counter x w = some (.int z, w') ∧ holds x w'
  step : ∀ x w, holds (some x) w → Between a z x →
    ∃ w', (Term.ofText step).eval around counter (some x) w = some (.int d, w') ∧ holds (some x) w'
  enter : ∀ w, holds none w → holds (some a) w
  turn : ∀ x w, holds (some x) w → Between a z x → holds (some x) (body x w)
  next : ∀ x w, holds (some x) w → Between a z x → holds (some (x + change a z d)) w

variable {around : Surroundings World} {body : Int → World → World}
  {counter first last step : String} {holds : Option Int → World → Prop} {a z d : Int}

namespace Steady

theorem eval_up (h : Steady around body counter first last step holds a z d) {x : Option Int}
    {w : World} (hw : holds x w) : ∃ w', holds x w' ∧
      (Term.compare .atMost (Term.ofText first) (Term.ofText last)).eval around counter x w =
        some (.bool (a ≤ z), w') := by
  obtain ⟨w', hfirst, hw'⟩ := h.first x w hw
  obtain ⟨w'', hlast, hw''⟩ := h.last x w' hw'
  exact ⟨w'', hw'', Term.eval_compare .atMost hfirst hlast⟩

theorem eval_first (h : Steady around body counter first last step holds a z d) {w : World}
    (hw : holds none w) : ∃ w', holds none w' ∧
      (range counter first last step).first.eval around counter none w = some (.int a, w') := by
  obtain ⟨w', hw', hup⟩ := h.eval_up hw
  obtain ⟨w'', hfirst, hw''⟩ := h.first none w' hw'
  refine ⟨w'', hw'', ?_⟩
  rw [range, Term.eval_choice hup, hfirst, ite_self]

/-- The test asks whether the last bound has been passed. -/
theorem eval_test (h : Steady around body counter first last step holds a z d) {x : Int}
    {w : World} (hw : holds (some x) w) : ∃ w', holds (some x) w' ∧
      (range counter first last step).test.eval around counter (some x) w =
        some (.bool (UpTo a z x), w') := by
  obtain ⟨w', hw', hup⟩ := h.eval_up hw
  obtain ⟨w'', hlast, hw''⟩ := h.last (some x) w' hw'
  refine ⟨w'', hw'', ?_⟩
  have hcompare := fun order => Term.eval_compare order (Term.eval_counter x w') hlast
  rw [range, Term.eval_choice hup, hcompare, hcompare]
  by_cases haz : a ≤ z <;> simp [haz, Order.holds, UpTo]

theorem eval_step (h : Steady around body counter first last step holds a z d)
    (hmath : counter ≠ "Math" ∧ around.hidesMath = false) {x : Int} {w : World}
    (hw : holds (some x) w) (hx : Between a z x) : ∃ w', holds (some x) w' ∧
      (range counter first last step).step.eval around counter (some x) w =
        some (.int (change a z d), w') := by
  obtain ⟨w', hw', hup⟩ := h.eval_up hw
  obtain ⟨w'', hstep, hw''⟩ := h.step x w' hw' hx
  refine ⟨w'', hw'', ?_⟩
  rw [range, Term.eval_choice hup]
  by_cases haz : a ≤ z <;> simp [haz, Term.eval, hmath, hstep, change]

/-- Without the object that it is taken from, there is no absolute value to add. -/
theorem eval_step_of_hidden (h : Steady around body counter first last step holds a z d)
    (hmath : counter = "Math" ∨ around.hidesMath = true) {x : Int} {w : World}
    (hw : holds (some x) w) :
    (range counter first last step).step.eval around counter (some x) w = none := by
  obtain ⟨w', hw', hup⟩ := h.eval_up hw
  rw [range, Term.eval_choice hup]
  by_cases haz : a ≤ z <;> simp [haz, Term.eval, hmath]

/-- From one of its values on, the counter takes the other ones and then passes the last bound. -/
theorem turns (h : Steady around body counter first last step holds a z d) (hd : d ≠ 0)
    (hmath : counter ≠ "Math" ∧ around.hidesMath = false) {k m : Nat}
    (hk : k + m = count a z d) {w : World} (hw : holds (some (value a z d k)) w) :
    ∃ w', (range counter first last step).Turns around body (value a z d k) w
      ((List.range' k m).map (value a z d)) (.done w') := by
  induction m generalizing k w with
  | zero =>
    have hend : ¬ UpTo a z (value a z d k) := by
      rw [← lt_count_iff hd]
      omega
    obtain ⟨w', -, htest⟩ := h.eval_test hw
    rw [decide_eq_false hend] at htest
    exact ⟨w', .stop htest⟩
  | succ m ih =>
    have hlt : k < count a z d := by omega
    have hbetween := between_value hd hlt
    obtain ⟨w₁, hw₁, htest⟩ := h.eval_test hw
    rw [decide_eq_true ((lt_count_iff hd k).1 hlt)] at htest
    obtain ⟨w₂, hw₂, hstep⟩ := h.eval_step hmath (h.turn _ w₁ hw₁ hbetween) hbetween
    have hnext := h.next _ w₂ hw₂ hbetween
    rw [← value_succ] at hnext
    obtain ⟨w', hturns⟩ := ih (by omega) hnext
    refine ⟨w', .turn htest hstep ?_⟩
    rwa [← value_succ]

/-- A loop over a range runs its body for the values of the progression. -/
theorem exists_runs (h : Steady around body counter first last step holds a z d) (hd : d ≠ 0)
    (hmath : counter ≠ "Math" ∧ around.hidesMath = false) {w : World} (hw : holds none w) :
    ∃ w', (range counter first last step).Runs around body w (progression a z d) (.done w') := by
  obtain ⟨w₁, hw₁, hfirst⟩ := h.eval_first hw
  have hstart := h.enter w₁ hw₁
  rw [← value_zero a z d] at hstart
  obtain ⟨w', hturns⟩ := h.turns hd hmath (Nat.zero_add _) hstart
  rw [value_zero, ← List.range_eq_range'] at hturns
  exact ⟨w', .enter hfirst hturns⟩

/-- If nothing can be added to the counter, the loop ends behind its first turn. -/
theorem runs_of_hidden (h : Steady around body counter first last step holds a z d)
    (hmath : counter = "Math" ∨ around.hidesMath = true) {w : World} (hw : holds none w) :
    (range counter first last step).Runs around body w [a] .failed := by
  obtain ⟨w₁, hw₁, hfirst⟩ := h.eval_first hw
  obtain ⟨w₂, hw₂, htest⟩ := h.eval_test (h.enter w₁ hw₁)
  have hbetween : Between a z a := ⟨min_le_left a z, le_max_left a z⟩
  have hhidden := h.eval_step_of_hidden hmath (h.turn a w₂ hw₂ hbetween)
  have hup : UpTo a z a := by
    unfold UpTo
    split <;> omega
  rw [decide_eq_true hup] at htest
  refine .enter hfirst (.noStep htest fun d w' hstep => ?_)
  cases hhidden.symm.trans hstep

end Steady

end Loop

end Resin.JavaScript
