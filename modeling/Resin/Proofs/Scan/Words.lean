import Resin.Proofs.Scan.Expr

/-!
# Words in the plain code of a script

A run of letters, digits and underscores that is as long as it can be and begins with no digit is a
word. `CodeWord s cs w` says that `w` is a word of the text `cs`, and that a scanner that goes over
the text from `s` stands in plain code before it. So the words in the texts of string literals and
template literals do not count, and those in substitutions do.

Where no run goes on across a seam, a word of two texts put together is one of the first or one of
the second, scanned from where the first ends (`CodeWord.of_append`). A literal has no words of its
own.
-/

namespace Resin.Scan

open Lexeme

/-! ## Words -/

/-- The characters of a run. -/
def isRunPart (c : Char) : Bool :=
  isWordChar c || c.isDigit

/-- The characters `w` between `before` and `after` are a word: they begin with a letter or an
underscore, and the run does not go on to either side. -/
structure IsWordIn (before w after : List Char) : Prop where
  first : ∃ c rest, w = c :: rest ∧ isWordChar c = true
  run : ∀ c ∈ w, isRunPart c = true
  before : ∀ c, before.getLast? = some c → isRunPart c = false
  after : ∀ c, after.head? = some c → isRunPart c = false

/-- A word of a text that stands in plain code when the text is scanned from a state. -/
def CodeWord (s : State) (cs w : List Char) : Prop :=
  ∃ before after stack, cs = before ++ (w ++ after) ∧ run s before = some ⟨.code, stack⟩ ∧
    IsWordIn before w after

variable {s t : State} {cs a b w : List Char}

theorem CodeWord.exists_mem (h : CodeWord s cs w) : ∃ c ∈ cs, isWordChar c = true := by
  obtain ⟨before, after, -, rfl, -, hword⟩ := h
  obtain ⟨c, rest, rfl, hc⟩ := hword.first
  exact ⟨c, by simp, hc⟩

theorem not_codeWord_of_forall (h : ∀ c ∈ cs, isWordChar c = false) : ¬ CodeWord s cs w := by
  intro hword
  obtain ⟨c, hmem, hc⟩ := hword.exists_mem
  rw [h c hmem] at hc
  cases hc

theorem not_codeWord_of_all (h : cs.all (!isWordChar ·) = true) : ¬ CodeWord s cs w :=
  not_codeWord_of_forall (by simpa using h)

/-! ### Finding the words of a text -/

/-- The words of a text, in plain code or not. `inside` tells whether a run goes on into the
text. -/
def wordsFrom (inside : Bool) : List Char → List String
  | [] => []
  | c :: cs =>
    if inside = false ∧ isWordChar c then
      String.ofList ((c :: cs).takeWhile isRunPart) :: wordsFrom (isRunPart c) cs
    else wordsFrom (isRunPart c) cs

theorem IsWordIn.mem_wordsFrom {before after : List Char} (h : IsWordIn before w after)
    {inside : Bool} (hinside : before = [] → inside = false) :
    String.ofList w ∈ wordsFrom inside (before ++ (w ++ after)) := by
  obtain ⟨hfirst, hrun, hbefore, hafter⟩ := h
  induction before generalizing inside with
  | nil =>
    obtain ⟨c, rest, rfl, hc⟩ := hfirst
    have hall : (c :: rest ++ after).takeWhile isRunPart = c :: rest := by
      have hstop : after.takeWhile isRunPart = [] := by
        cases after with
        | nil => rfl
        | cons d after => rw [List.takeWhile_cons, hafter d rfl, if_neg Bool.false_ne_true]
      rw [List.takeWhile_append_of_pos hrun, hstop, List.append_nil]
    rw [List.nil_append, List.cons_append, wordsFrom, if_pos ⟨hinside rfl, hc⟩,
      ← List.cons_append, hall]
    exact List.mem_cons_self ..
  | cons d before ih =>
    -- behind `d` a run goes on exactly if `d` belongs to it
    have hrest := @ih (isRunPart d) (fun hnil => hbefore d (by rw [hnil]; rfl)) (fun c hc =>
      hbefore c (by rw [List.getLast?_cons, hc]; rfl))
    rw [List.cons_append, wordsFrom]
    split
    · exact List.mem_cons_of_mem _ hrest
    · exact hrest

/-- The words of a text, in plain code or not. -/
def words (text : String) : List String :=
  wordsFrom false text.toList

theorem CodeWord.mem_words {text : String} {w : String} (h : CodeWord s text.toList w.toList) :
    w ∈ words text := by
  obtain ⟨before, after, -, heq, -, hword⟩ := h
  have hmem := @IsWordIn.mem_wordsFrom _ _ _ hword false fun _ => rfl
  rwa [← heq, String.ofList_toList] at hmem

/-! ## Seams -/

/-- No run goes on from one text into the next. -/
def Seam (a b : List Char) : Prop :=
  ∀ c d, a.getLast? = some c → b.head? = some d → isRunPart c = true → isRunPart d = false

theorem seam_of_last (h : a.getLast?.all (fun c => !isRunPart c) = true) : Seam a b := by
  intro c d hc _ hrun
  rw [hc] at h
  simp [hrun] at h

theorem seam_of_first (h : b.head?.all (fun c => !isRunPart c) = true) : Seam a b := by
  intro c d _ hd _
  rw [hd] at h
  simpa using h

/-- A word of two texts put together is a word of one of them. -/
theorem CodeWord.of_append (hseam : Seam a b) (h : CodeWord s (a ++ b) w) :
    CodeWord s a w ∨ ∃ t, Scan.run s a = some t ∧ CodeWord t b w := by
  obtain ⟨before, after, stack, heq, hstate, hword⟩ := h
  -- a word that begins behind the seam
  have hright {more : List Char} (hbefore : before = a ++ more) (hb : b = more ++ (w ++ after)) :
      ∃ t, Scan.run s a = some t ∧ CodeWord t b w := by
    rw [hbefore, run_append] at hstate
    obtain ⟨t, ht, hstate⟩ := Option.bind_eq_some_iff.1 hstate
    refine ⟨t, ht, more, after, stack, hb, hstate, hword.first, hword.run, fun c hc => ?_,
      hword.after⟩
    exact hword.before c (by rw [hbefore, List.getLast?_append, hc]; rfl)
  -- a word that ends in front of it
  have hleft {more : List Char} (ha : a = before ++ (w ++ more)) (hafter : after = more ++ b) :
      CodeWord s a w := by
    refine ⟨before, more, stack, ha, hstate, hword.first, hword.run, hword.before, fun c hc => ?_⟩
    exact hword.after c (by rw [hafter, List.head?_append, hc]; rfl)
  rcases List.append_eq_append_iff.1 heq with ⟨more, hbefore, hb⟩ | ⟨front, ha, hw⟩
  · exact .inr (hright hbefore hb)
  · rcases List.append_eq_append_iff.1 hw with ⟨more, hfront, hafter⟩ | ⟨back, hw, hb⟩
    · exact .inl (hleft (by rw [ha, hfront]) hafter)
    · rcases List.eq_nil_or_concat front with rfl | ⟨init, c, rfl⟩
      · exact .inr (@hright [] (by simpa using ha.symm) (by rw [hb, hw]; rfl))
      · cases back with
        | nil => exact .inl (@hleft [] (by rw [ha, hw]; simp) (by simpa using hb.symm))
        | cons d back =>
          -- else the characters on both sides of the seam belong to the word
          have hc : isRunPart c = true := hword.run c (by rw [hw]; simp)
          have hd : isRunPart d = true := hword.run d (by rw [hw]; simp)
          have hnot := hseam c d (by rw [ha]; simp) (by rw [hb]; rfl) hc
          rw [hd] at hnot
          cases hnot

/-! ## What is open around a text -/

theorem run_prefix (h : run s (a ++ b) = some t) : ∃ u, run s a = some u := by
  rw [run_append] at h
  obtain ⟨u, hu, -⟩ := Option.bind_eq_some_iff.1 h
  exact ⟨u, hu⟩

/-- What is open around a closed text has no part in its words. -/
theorem CodeWord.of_within {text : String} {stack : List Bracket} (hclosed : Closed text)
    (h : CodeWord ⟨.code, stack⟩ text.toList w) : CodeWord start text.toList w := by
  obtain ⟨before, after, stack', heq, hstate, hword⟩ := h
  rw [Closed, heq] at hclosed
  obtain ⟨⟨mode, opened⟩, hu⟩ := run_prefix hclosed
  have hwithin : Scan.run ⟨.code, stack⟩ before = _ := run_within hu stack
  rw [hstate] at hwithin
  cases hwithin
  exact ⟨before, after, opened, heq, hu, hword⟩

/-! ## Literals -/

theorem Leads.exists_of_append {P : State → Prop} (h : Leads P s (a ++ b) t) :
    ∃ u, Scan.run s a = some u ∧ P u := by
  induction a generalizing s with
  | nil =>
    refine ⟨s, rfl, ?_⟩
    cases h with
    | nil hp => exact hp
    | cons hp _ _ => exact hp
  | cons c a ih =>
    cases h with
    | cons _ hstep hrest =>
      obtain ⟨u, hu, hp⟩ := ih hrest
      exact ⟨u, by rw [Scan.run, hstep]; exact hu, hp⟩

/-- A text that the scanner goes over without coming into plain code has no words there. -/
theorem Leads.not_codeWord {P : State → Prop} (h : Leads P s cs t)
    (hcode : ∀ stack, ¬ P ⟨.code, stack⟩) : ¬ CodeWord s cs w := by
  rintro ⟨before, after, stack, rfl, hstate, -⟩
  obtain ⟨u, hu, hp⟩ := h.exists_of_append
  rw [hstate] at hu
  cases hu
  exact hcode stack hp

theorem not_inString_code (stack stack' : List Bracket) : ¬ InString stack ⟨.code, stack'⟩ := by
  rintro ⟨h | h, -⟩ <;> cases h

theorem not_inTemplate_code (stack stack' : List Bracket) :
    ¬ InTemplate stack ⟨.code, stack'⟩ := by
  rintro ⟨h | h | h, -⟩ <;> cases h

theorem not_codeWord_quoted (text : String) : ¬ CodeWord start (Literal.quoted text).toList w := by
  intro h
  rw [Literal.quoted, String.toList_ofList, Literal.quotedChars, ← List.singleton_append,
    List.append_assoc] at h
  rcases h.of_append (seam_of_last (by decide)) with h | ⟨t, ht, h⟩
  · exact not_codeWord_of_all rfl h
  · cases ht
    have hinside := leads_string text.toList []
    rcases h.of_append (seam_of_first (by decide)) with h | ⟨u, -, h⟩
    · exact hinside.not_codeWord (not_inString_code []) h
    · exact not_codeWord_of_all rfl h

/-- A text of word characters is its only word. -/
theorem CodeWord.eq_of_isWord {text w : String} (htext : IsWord text)
    (h : CodeWord s text.toList w.toList) : w = text := by
  obtain ⟨before, after, -, heq, -, hword⟩ := h
  have hrun : ∀ c ∈ before ++ (w.toList ++ after), isRunPart c = true := by
    intro c hc
    rw [isRunPart, htext c (heq ▸ hc), Bool.true_or]
  have hbefore : before = [] := by
    rcases List.eq_nil_or_concat before with hnil | ⟨init, c, rfl⟩
    · exact hnil
    · have hnot := hword.before c (by simp)
      rw [hrun c (by simp)] at hnot
      cases hnot
  have hafter : after = [] := by
    cases after with
    | nil => rfl
    | cons c after =>
      have hnot := hword.after c rfl
      rw [hrun c (by simp)] at hnot
      cases hnot
  rw [hbefore, hafter, List.nil_append, List.append_nil] at heq
  exact String.toList_inj.1 heq.symm

end Resin.Scan
