import Resin.Proofs.Text.Readers
import Resin.Script.Method

/-!
# Filling in a text is one pass

A text with places is gone over once, from its front. Each turn goes to the next opening brace. If
this brace opens a place, what the place stands for is written and the pass goes on behind the
place; if not, the brace is written and the pass goes on right behind it. What is written is never
read again. `Fills` says this turn by turn, without the scanner, and `fill_places` says that filling
in a text takes exactly these turns, at most one for each brace of the text.
-/

namespace Resin.Method

open Text

variable {target : String} {args : List String}

/-! ## Places -/

/-- What a key between braces stands for: `t` for the target, an integer for the argument with this
number. -/
inductive Key (target : String) (args : List String) : List Char → String → Prop
  | target : Key target args ['t'] target
  | argument {key : List Char} {n : Nat} {value : String} : Unsigned key n → n < 2 ^ 64 →
    args[n]? = some value → Key target args key value

/-- Behind an opening brace stand a key, the first closing brace and the rest of the text. -/
def PlaceAt (target : String) (args : List String) (cs : List Char) (value : String)
    (rest : List Char) : Prop :=
  ∃ key, cs = key ++ '}' :: rest ∧ '}' ∉ key ∧ Key target args key value

theorem value?_eq_some_iff {key : List Char} {value : String} :
    value? target args key = some value ↔ Key target args key value := by
  have ht (n : Nat) : ¬ Unsigned ['t'] n := by
    rw [unsigned_iff]
    simp [digits?]
  unfold value?
  constructor
  · intro h
    split at h
    · next hkey =>
      cases h
      rw [hkey]
      exact .target
    · split at h
      · next n hn =>
        obtain ⟨hkey, hlt⟩ := unsigned64?_eq_some_iff.1 hn
        exact .argument hkey hlt h
      · cases h
  · rintro (_ | ⟨hkey, hlt, hvalue⟩)
    · rfl
    · rw [if_neg (fun heq => ht _ (heq ▸ hkey)), unsigned64?_eq_some_iff.2 ⟨hkey, hlt⟩]
      exact hvalue

/-- The characters of a key are no braces. -/
theorem Key.brace_not_mem {key : List Char} {value : String} (h : Key target args key value) :
    '}' ∉ key := by
  have hdigits {cs : List Char} (hcs : IsDigits cs) : '}' ∉ cs :=
    fun hmem => absurd (hcs.isDigit _ hmem) (by decide)
  cases h with
  | target => decide
  | argument hkey =>
    cases hkey with
    | bare hcs => exact hdigits hcs
    | plus hcs => simpa using hdigits hcs

/-- A place is found where one is open, with as many characters as it has. -/
theorem place?_eq_some_iff {cs : List Char} {value : String} {length : Nat} :
    place? target args cs = some (value, length) ↔
      ∃ key rest, cs = key ++ '}' :: rest ∧ '}' ∉ key ∧ Key target args key value ∧
        length = key.length + 1 := by
  unfold place?
  constructor
  · intro h
    split at h
    · next key rest hcut =>
      simp only [Option.map_eq_some_iff, Prod.mk.injEq] at h
      obtain ⟨_, hvalue, rfl, rfl⟩ := h
      obtain ⟨hcs, hbrace⟩ := cut?_char_eq_some_iff.1 hcut
      exact ⟨key, rest, hcs, hbrace, value?_eq_some_iff.1 hvalue, rfl⟩
    · cases h
  · rintro ⟨key, rest, rfl, hbrace, hkey, rfl⟩
    rw [cut?_char_eq_some_iff.2 ⟨rfl, hbrace⟩]
    simp [value?_eq_some_iff.2 hkey]

/-! ## One turn -/

theorem fillFrom_eq_drop (n : Nat) (cs : List Char) :
    fillFrom target args n cs = fillFrom target args 0 (cs.drop n) := by
  induction n generalizing cs with
  | zero => rfl
  | succ n ih =>
    cases cs with
    | nil => rfl
    | cons c cs => exact ih cs

/-- What stands in front of the first opening brace is copied. -/
theorem fillFrom_append {before : List Char} (h : '{' ∉ before) (cs : List Char) :
    fillFrom target args 0 (before ++ cs) = before ++ fillFrom target args 0 cs := by
  induction before with
  | nil => rfl
  | cons c before ih =>
    rw [List.mem_cons, not_or] at h
    rw [List.cons_append, fillFrom, if_neg (Ne.symm h.1), ih h.2, List.cons_append]

/-- A place is filled, and the pass goes on behind it. -/
theorem fillFrom_place {cs rest : List Char} {value : String}
    (h : PlaceAt target args cs value rest) :
    fillFrom target args 0 ('{' :: cs) = value.toList ++ fillFrom target args 0 rest := by
  obtain ⟨key, hcs, hbrace, hkey⟩ := h
  have hplace : place? target args cs = some (value, key.length + 1) :=
    place?_eq_some_iff.2 ⟨key, rest, hcs, hbrace, hkey, rfl⟩
  have hdrop : cs.drop (key.length + 1) = rest := by
    rw [hcs, ← List.singleton_append, ← List.append_assoc]
    exact List.drop_left' (by simp)
  rw [fillFrom, if_pos rfl, hplace]
  show value.toList ++ fillFrom target args (key.length + 1) cs = _
  rw [fillFrom_eq_drop, hdrop]

/-- A brace that opens no place is copied, and the pass goes on right behind it. -/
theorem fillFrom_brace {cs : List Char} (h : ∀ value rest, ¬ PlaceAt target args cs value rest) :
    fillFrom target args 0 ('{' :: cs) = '{' :: fillFrom target args 0 cs := by
  have hplace : place? target args cs = none := by
    rw [Option.eq_none_iff_forall_ne_some]
    rintro ⟨value, length⟩ hsome
    obtain ⟨key, rest, hcs, hbrace, hkey, -⟩ := place?_eq_some_iff.1 hsome
    exact h value rest ⟨key, hcs, hbrace, hkey⟩
  rw [fillFrom, if_pos rfl, hplace]

/-! ## All turns -/

/-- So many turns go over a text with places and write a text: a turn for each opening brace that is
met, until none is left. -/
inductive Fills (target : String) (args : List String) : Nat → List Char → List Char → Prop
  | done {rest : List Char} : '{' ∉ rest → Fills target args 0 rest rest
  | filled {turns : Nat} {before cs rest out : List Char} {value : String} : '{' ∉ before →
    PlaceAt target args cs value rest → Fills target args turns rest out →
      Fills target args (turns + 1) (before ++ '{' :: cs) (before ++ (value.toList ++ out))
  | copied {turns : Nat} {before cs out : List Char} : '{' ∉ before →
    (∀ value rest, ¬ PlaceAt target args cs value rest) → Fills target args turns cs out →
      Fills target args (turns + 1) (before ++ '{' :: cs) (before ++ '{' :: out)

theorem fillFrom_of_not_mem {cs : List Char} (h : '{' ∉ cs) : fillFrom target args 0 cs = cs := by
  have happend := @fillFrom_append target args cs h []
  rwa [List.append_nil, show fillFrom target args 0 [] = [] from rfl, List.append_nil] at happend

/-- Turns that go over a text write what filling it in gives. -/
theorem Fills.eq {turns : Nat} {cs out : List Char} (h : Fills target args turns cs out) :
    out = fillFrom target args 0 cs := by
  induction h with
  | done hrest => exact (fillFrom_of_not_mem hrest).symm
  | filled hbefore hplace _ ih => rw [fillFrom_append hbefore, fillFrom_place hplace, ih]
  | copied hbefore hplace _ ih => rw [fillFrom_append hbefore, fillFrom_brace hplace, ih]

/-- Every text is gone over in at most as many turns as it has opening braces. -/
theorem exists_fills (cs : List Char) :
    ∃ turns ≤ cs.count '{', Fills target args turns cs (fillFrom target args 0 cs) := by
  -- what is left behind a brace, or behind a place, is shorter than the text
  induction hlength : cs.length using Nat.strongRecOn generalizing cs with
  | ind length ih =>
    by_cases hopen : '{' ∈ cs
    · obtain ⟨before, after, rfl, hbefore⟩ := List.eq_append_cons_of_mem hopen
      have hcount : (before ++ '{' :: after).count '{' = after.count '{' + 1 := by
        rw [List.count_append, List.count_eq_zero.2 hbefore, Nat.zero_add, List.count_cons_self]
      rw [List.length_append, List.length_cons] at hlength
      rw [hcount, fillFrom_append hbefore]
      by_cases hplace : ∃ value rest, PlaceAt target args after value rest
      · obtain ⟨value, rest, hplace⟩ := hplace
        have hrest : rest.length < after.length ∧ rest.count '{' ≤ after.count '{' := by
          obtain ⟨key, rfl, -, -⟩ := hplace
          constructor
          · simp only [List.length_append, List.length_cons]
            omega
          · exact ((List.suffix_cons '}' rest).trans (List.suffix_append key _)).sublist.count_le _
        obtain ⟨turns, hturns, hfills⟩ := ih rest.length (by omega) rest rfl
        rw [fillFrom_place hplace]
        exact ⟨turns + 1, by omega, .filled hbefore hplace hfills⟩
      · have hplace : ∀ value rest, ¬ PlaceAt target args after value rest :=
          fun value rest h => hplace ⟨value, rest, h⟩
        obtain ⟨turns, hturns, hfills⟩ := ih after.length (by omega) after rfl
        rw [fillFrom_brace hplace]
        exact ⟨turns + 1, by omega, .copied hbefore hplace hfills⟩
    · refine ⟨0, Nat.zero_le _, ?_⟩
      rw [fillFrom_of_not_mem hopen]
      exact .done hopen

/-- A text in which no brace opens a place stays as it is. -/
theorem fillFrom_of_no_place {cs : List Char}
    (h : ∀ before after, cs = before ++ '{' :: after →
      ∀ value rest, ¬ PlaceAt target args after value rest) : fillFrom target args 0 cs = cs := by
  induction cs with
  | nil => rfl
  | cons c cs ih =>
    have hrest : fillFrom target args 0 cs = cs :=
      ih fun before after hcs => h (c :: before) after (by rw [hcs, List.cons_append])
    by_cases hc : c = '{'
    · subst hc
      rw [fillFrom_brace (h [] cs rfl), hrest]
    · rw [fillFrom, if_neg hc, hrest]

/-! ## Texts made of places -/

/-- A stretch of a text up to a place, with the key of the place and what this stands for. -/
structure Stretch where
  before : List Char
  key : List Char
  value : String

namespace Stretch

/-- The text with the places of some stretches. -/
def template (last : List Char) : List Stretch → List Char
  | [] => last
  | s :: stretches => s.before ++ '{' :: (s.key ++ '}' :: template last stretches)

/-- The text in which each place has become what it stands for. -/
def filled (last : List Char) : List Stretch → List Char
  | [] => last
  | s :: stretches => s.before ++ (s.value.toList ++ filled last stretches)

/-- Only the place has an opening brace, and its key is one. -/
structure Fits (target : String) (args : List String) (s : Stretch) : Prop where
  plain : '{' ∉ s.before
  key : Key target args s.key s.value

theorem fillFrom_template {last : List Char} (hlast : '{' ∉ last) {stretches : List Stretch}
    (h : ∀ s ∈ stretches, s.Fits target args) :
    fillFrom target args 0 (template last stretches) = filled last stretches := by
  induction stretches with
  | nil => exact fillFrom_of_not_mem hlast
  | cons s stretches ih =>
    rw [List.forall_mem_cons] at h
    have hplace : PlaceAt target args (s.key ++ '}' :: template last stretches) s.value
        (template last stretches) := ⟨s.key, rfl, h.1.key.brace_not_mem, h.1.key⟩
    rw [template, fillFrom_append h.1.plain, fillFrom_place hplace, ih h.2, filled]

end Stretch

/-- Filling in is one pass. A text made of places becomes the same text with the values of its keys,
whatever braces these have themselves. Every text at all is gone over in the turns of `Fills` and in
no others, at most one for each of its opening braces; if none of them opens a place, the text stays
as it is. -/
theorem fill_places (target : String) (args : List String) :
    (∀ (stretches : List Stretch) (last : List Char), (∀ s ∈ stretches, s.Fits target args) →
      '{' ∉ last → fill (String.ofList (Stretch.template last stretches)) target args =
        String.ofList (Stretch.filled last stretches)) ∧
    ∀ template : String,
      (∃ turns ≤ template.toList.count '{',
        Fills target args turns template.toList (fill template target args).toList) ∧
      (∀ turns out, Fills target args turns template.toList out →
        out = (fill template target args).toList) ∧
      ((∀ before after, template.toList = before ++ '{' :: after →
        ∀ value rest, ¬ PlaceAt target args after value rest) →
          fill template target args = template) := by
  refine ⟨fun stretches last hfits hlast => ?_, fun template => ⟨?_, fun turns out h => ?_, ?_⟩⟩
  · rw [fill, String.toList_ofList, Stretch.fillFrom_template hlast hfits]
  · rw [fill, String.toList_ofList]
    exact exists_fills template.toList
  · rw [fill, String.toList_ofList]
    exact h.eq
  · intro h
    rw [fill, fillFrom_of_no_place h, String.ofList_toList]

/-- What is put in has places of its own that are not filled, and of four braces only the second
opens a place: the first one has a key with a brace in it, the third one an argument that is not
there, and the last one is not closed. -/
theorem fill_places_nested :
    fill "f(\x7bt\x7d, \x7b+01\x7d)" "\x7b0\x7d" ["a", "\x7d\x7bt\x7d"] =
      "f(\x7b0\x7d, \x7d\x7bt\x7d)" ∧
    (∃ turns ≤ 4, Fills "\x7b0\x7d" ["a"] turns "\x7b \x7bt\x7d\x7b9\x7d\x7b".toList
      "\x7b \x7b0\x7d\x7b9\x7d\x7b".toList) ∧
    fill "\x7b1\x7d" "x" ["a"] = "\x7b1\x7d" := by
  have hkey : Key "\x7b0\x7d" ["a", "\x7d\x7bt\x7d"] "+01".toList "\x7d\x7bt\x7d" :=
    value?_eq_some_iff.1 rfl
  refine ⟨?_, ?_, ?_⟩
  · exact (fill_places "\x7b0\x7d" ["a", "\x7d\x7bt\x7d"]).1
      [⟨"f(".toList, ['t'], "\x7b0\x7d"⟩, ⟨", ".toList, "+01".toList, "\x7d\x7bt\x7d"⟩] [')']
      (by simpa using ⟨⟨by decide, .target⟩, by decide, hkey⟩) (by decide)
  · exact ((fill_places "\x7b0\x7d" ["a"]).2 "\x7b \x7bt\x7d\x7b9\x7d\x7b").1
  · refine ((fill_places "x" ["a"]).2 "\x7b1\x7d").2.2 fun before after h value rest hplace => ?_
    obtain ⟨key, hkey, hbrace, hvalue⟩ := hplace
    have hfound := place?_eq_some_iff.2 ⟨key, rest, hkey, hbrace, hvalue, rfl⟩
    -- there is only one brace
    cases before with
    | nil =>
      obtain rfl : ['1', '}'] = after := (List.cons.inj h).2
      cases hfound
    | cons c before =>
      have hmem : '{' ∈ ['1', '}'] := by
        rw [show ['1', '}'] = before ++ '{' :: after from (List.cons.inj h).2]
        simp
      exact absurd hmem (by decide)

end Resin.Method
