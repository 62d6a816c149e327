import Resin.Proofs.Parse.Passing

/-!
# The tokens of a source

Every token of a source is the reading of a lexeme, so what holds of all readings holds of all
tokens: none of them is the end of the file. Its errors are lexical (`Cursor.lexical_of_mem`). A
parse that passes tokens from the start of a source to the end of the file has therefore passed all
of them, and met no error (`items_eq_of_passes`).
-/

namespace Resin

open ParseState

/-! ## Readings -/

/-- Every token of a source is the reading of a lexeme. -/
theorem Cursor.exists_front_of_mem {n : Nat} {c : Cursor} {token : Located Token}
    (h : .ok token ∈ Cursor.outcomes n c) :
    ∃ first rest, (Lexeme.front first rest).reading = .ok token.value := by
  induction n generalizing c with
  | zero => cases h
  | succ n ih =>
    simp only [Cursor.outcomes] at h
    split at h
    · cases h
    · next outcome after hnext =>
      rcases List.mem_cons.1 h with rfl | h
      · simp only [Cursor.next?] at hnext
        split at hnext
        · cases hnext
        · next first rest _ =>
          simp only [Option.some.injEq, Prod.mk.injEq] at hnext
          refine ⟨first, rest, ?_⟩
          generalize (Lexeme.front first rest).reading = reading at hnext
          cases reading with
          | ok value => cases hnext.1; rfl
          | error cause => cases hnext.1
      · exact ih h

theorem Stream.exists_front_of_mem {source : String} {token : Located Token}
    (h : .ok token ∈ (Stream.ofText source).items) :
    ∃ first rest, (Lexeme.front first rest).reading = .ok token.value :=
  Cursor.exists_front_of_mem h

/-- What the lexeme at the front of a text is read as: a word, a number, a text, a raw block, the
input or a symbol. -/
theorem Lexeme.front_ok_cases {first : Char} {rest : List Char} {token : Token}
    (h : (Lexeme.front first rest).reading = .ok token) :
    (∃ w : List Char, w ≠ [] ∧ (∀ c ∈ w, isWordChar c = true) ∧ token = .ofWord (String.ofList w)) ∨
    (∃ whole fraction, token = .number (.ofParts whole fraction)) ∨
    (∃ content quote, token = .text content quote) ∨
    (∃ code, token = .raw code) ∨ token = .input ∨ ∃ s, token = .symbol s := by
  simp only [Lexeme.front] at h
  -- the first character tells the kind of the lexeme
  split at h
  · next hfirst =>
    simp only [Lexeme.word, Except.ok.injEq] at h
    refine .inl ⟨_, List.cons_ne_nil _ _, ?_, h.symm⟩
    intro c hc
    rcases List.mem_cons.1 hc with rfl | hc
    · exact hfirst
    · exact List.all_eq_true.1 List.all_takeWhile c hc
  · split at h
    · simp only [Lexeme.number] at h
      split at h <;> exact .inr (.inl ⟨_, _, (Except.ok.inj h).symm⟩)
    · split at h
      · simp only [Lexeme.quoted] at h
        split at h
        · exact .inr (.inr (.inl ⟨_, _, (Except.ok.inj h).symm⟩))
        · cases h
      · split at h
        · simp only [Lexeme.raw] at h
          repeat' split at h
          all_goals first
            | exact .inr (.inr (.inr (.inl ⟨_, (Except.ok.inj h).symm⟩)))
            | cases h
        · simp only [Lexeme.symbol] at h
          split at h
          · exact .inr (.inr (.inr (.inr (.inl (Except.ok.inj h).symm))))
          · split at h
            · exact .inr (.inr (.inr (.inr (.inr ⟨_, (Except.ok.inj h).symm⟩))))
            · cases h

theorem Token.ofWord_ne_endOfFile (word : String) : Token.ofWord word ≠ .endOfFile := by
  unfold Token.ofWord
  repeat' split
  all_goals simp

theorem Token.ofWord_ne_number (word : String) (v : Number) : Token.ofWord word ≠ .number v := by
  unfold Token.ofWord
  repeat' split
  all_goals simp

theorem Lexeme.ne_endOfFile_of_front {first : Char} {rest : List Char} {token : Token}
    (h : (Lexeme.front first rest).reading = .ok token) : token ≠ .endOfFile := by
  rintro rfl
  obtain ⟨w, -, -, hw⟩ | ⟨_, _, h⟩ | ⟨_, _, h⟩ | ⟨_, h⟩ | h | ⟨_, h⟩ := Lexeme.front_ok_cases h
  · exact Token.ofWord_ne_endOfFile _ hw.symm
  all_goals cases h

/-- No token of a source is the end of the file. -/
theorem Stream.value_ne_endOfFile {source : String} {token : Located Token}
    (h : .ok token ∈ (Stream.ofText source).items) : token.value ≠ .endOfFile := by
  obtain ⟨first, rest, hfront⟩ := Stream.exists_front_of_mem h
  exact Lexeme.ne_endOfFile_of_front hfront

theorem Lexeme.lexical_of_front {first : Char} {rest : List Char} {cause : Cause}
    (h : (Lexeme.front first rest).reading = .error cause) : cause.stage = .lexical := by
  simp only [Lexeme.front] at h
  split at h
  · cases h
  · split at h
    · simp only [Lexeme.number] at h
      split at h <;> cases h
    · split at h
      · simp only [Lexeme.quoted] at h
        split at h <;> cases h
        rfl
      · split at h
        · simp only [Lexeme.raw] at h
          repeat' split at h
          all_goals cases h
          all_goals rfl
        · simp only [Lexeme.symbol] at h
          repeat' split at h
          all_goals cases h
          rfl

/-- An error among the outcomes is lexical and has no hint. -/
theorem Cursor.lexical_of_mem {n : Nat} {c : Cursor} {e : Error}
    (h : .error e ∈ Cursor.outcomes n c) : e.cause.stage = .lexical ∧ e.hint = none := by
  induction n generalizing c with
  | zero => cases h
  | succ n ih =>
    simp only [Cursor.outcomes] at h
    split at h
    · cases h
    · next outcome after hnext =>
      rcases List.mem_cons.1 h with rfl | h
      · simp only [Cursor.next?] at hnext
        split at hnext
        · cases hnext
        · next first rest _ =>
          simp only [Option.some.injEq, Prod.mk.injEq] at hnext
          cases hreading : (Lexeme.front first rest).reading with
          | ok value =>
            rw [hreading] at hnext
            cases hnext.1
          | error cause =>
            rw [hreading] at hnext
            cases hnext.1
            exact ⟨Lexeme.lexical_of_front hreading, rfl⟩
      · exact ih h

/-! ## Passing a whole source -/

/-- A stretch that leads to the end of the file has all tokens from the current one on. -/
theorem ParseState.Passes.items_eq {s t : ParseState} {ts : List (Located Token)}
    (h : s.Passes ts t) (hne : ts ≠ []) (hend : t.current.value = .endOfFile)
    (hno : ∀ token, .ok token ∈ s.ahead.items → token.value ≠ .endOfFile) :
    .ok s.current :: s.ahead.items = ts.map (Except.ok (ε := Error)) := by
  induction h with
  | nil => exact absurd rfl hne
  | @cons s u t token ts _ ha hts ih =>
    -- the stretch goes on as long as there are tokens, since none of them is the end of the file
    obtain ⟨rfl, hnext, -⟩ := advance_done_iff.1 ha
    simp only [Stream.next] at hnext
    split at hnext
    · -- nothing is ahead but the end of the file, which is not passed
      next hitems =>
      simp only [Prod.mk.injEq, Except.ok.injEq] at hnext
      cases hts with
      | nil => simp [hitems]
      | cons hne' ha' _ =>
        obtain ⟨rfl, -⟩ := advance_done_iff.1 ha'
        rw [← hnext.1] at hne'
        exact absurd rfl hne'
    · next outcome items hitems =>
      simp only [Prod.mk.injEq] at hnext
      obtain ⟨rfl, hahead⟩ := hnext
      have hcurrent := hno u.current (by rw [hitems]; exact List.mem_cons_self ..)
      have hrest : u.ahead.items = items := by rw [← hahead]
      have hne' : ts ≠ [] := by
        rintro rfl
        obtain rfl := Passes.nil_iff.1 hts
        exact hcurrent hend
      have hih := ih hne' hend fun token htoken =>
        hno token (by rw [hitems, ← hrest]; exact List.mem_cons_of_mem _ htoken)
      rw [List.map_cons, ← hih, hitems, hrest]

/-- A parse that gets from the start of a source to the end of the file passes every token of it,
and the source has no error. -/
theorem items_eq_of_passes {source : String} {s t : ParseState} {ts : List (Located Token)}
    (hstart : ParseState.ofText source = .ok s) (h : s.Passes ts t)
    (hend : t.current.value = .endOfFile) :
    (Stream.ofText source).items = ts.map Except.ok := by
  have hno : ∀ token, .ok token ∈ (Stream.ofText source).items → token.value ≠ .endOfFile :=
    fun _ => Stream.value_ne_endOfFile
  simp only [ParseState.ofText, ParseState.start, Stream.next] at hstart
  generalize Stream.ofText source = stream at hstart hno
  obtain ⟨items, stop⟩ := stream
  cases items with
  | nil =>
    simp only [Except.ok.injEq] at hstart
    subst hstart
    cases h with
    | nil => rfl
    | cons hne ha _ =>
      obtain ⟨rfl, -⟩ := advance_done_iff.1 ha
      exact absurd rfl hne
  | cons outcome items =>
    cases outcome with
    | error e => cases hstart
    | ok token =>
      simp only [Except.ok.injEq] at hstart
      subst hstart
      have hne : ts ≠ [] := by
        rintro rfl
        obtain rfl := Passes.nil_iff.1 h
        exact hno token (List.mem_cons_self ..) hend
      exact h.items_eq hne hend fun token' htoken' => hno token' (List.mem_cons_of_mem _ htoken')

theorem exists_passes {s : ParseState} {ts : List (Located Token)}
    (hcurrent : s.current.value ≠ .endOfFile) (hts : ∀ token ∈ ts, token.value ≠ .endOfFile)
    (h : s.ahead.items = ts.map Except.ok) :
    ∃ t, s.Passes (s.current :: ts) t ∧ t.current.value = .endOfFile := by
  induction ts generalizing s with
  | nil =>
    have hadvance : Parse.advance s =
        .done s.current ⟨Cursor.endOfFile s.ahead.stop, s.ahead, s.current.span.stop⟩ := by
      simp [Parse.advance, Stream.next, h]
    exact ⟨_, Passes.singleton_iff.2 ⟨hcurrent, hadvance⟩, rfl⟩
  | cons token ts ih =>
    have hadvance : Parse.advance s = .done s.current
        ⟨token, { s.ahead with items := ts.map Except.ok }, s.current.span.stop⟩ := by
      simp [Parse.advance, Stream.next, h]
    obtain ⟨t, ht, hend⟩ := ih
      (s := ⟨token, { s.ahead with items := ts.map Except.ok }, s.current.span.stop⟩)
      (hts token (List.mem_cons_self ..)) (fun x hx => hts x (List.mem_cons_of_mem _ hx)) rfl
    exact ⟨t, .cons hcurrent hadvance ht, hend⟩

/-- A source without errors is passed from its start to the end of the file. -/
theorem passes_of_items_eq {source : String} {ts : List (Located Token)}
    (h : (Stream.ofText source).items = ts.map Except.ok) :
    ∃ s t, ParseState.ofText source = .ok s ∧ s.Passes ts t ∧ t.current.value = .endOfFile := by
  have hne : ∀ token ∈ ts, token.value ≠ .endOfFile := fun token htoken =>
    Stream.value_ne_endOfFile (h ▸ List.mem_map_of_mem htoken)
  cases ts with
  | nil =>
    refine ⟨⟨Cursor.endOfFile (Stream.ofText source).stop, Stream.ofText source, 0⟩, _, ?_, .nil,
      rfl⟩
    simp only [ParseState.ofText, ParseState.start, Stream.next, h, List.map_nil]
  | cons token ts =>
    obtain ⟨t, ht, hend⟩ := exists_passes
      (s := ⟨token, { Stream.ofText source with items := ts.map Except.ok }, 0⟩)
      (hne token (List.mem_cons_self ..)) (fun x hx => hne x (List.mem_cons_of_mem _ hx)) rfl
    refine ⟨_, t, ?_, ht, hend⟩
    simp only [ParseState.ofText, ParseState.start, Stream.next, h, List.map_cons]

end Resin
