import Resin.Proofs.Grammar.Program
import Resin.Proofs.Parse.ErrorSpans
import Resin.Proofs.Parse.ForkStmt

/-!
# The first error of a source

A source whose first tokens could begin a program, and which then has a text that is no token, is
rejected for that text. Two things can get in the way. The tokens `in`, `to`, `:` and `.` are passed
with a hint at hand, which takes the place of the note of an error met behind them
(`Error.behind`). And the head of a lambda is tried before it is read: an error met in it is
dropped, so that a source which breaks off there is rejected for one of its correct tokens
(`Misread`).
-/

namespace Resin

open Text Parse

/-! ## The text in front of an error -/

namespace Cursor

/-- A gap is a gap also at the end of a text. -/
theorem triviaLength_cut {comment : Bool} {gap : List Char} {first : Char} {tail : List Char}
    (h : triviaLength comment (gap ++ first :: tail) = gap.length) :
    triviaLength comment gap = gap.length := by
  induction gap generalizing comment with
  | nil => rfl
  | cons c gap ih =>
    simp only [List.cons_append, triviaLength_cons, List.length_cons] at h ⊢
    split
    · next hskip =>
      rw [hskip] at h
      rw [ih (Nat.add_right_cancel h)]
    · next hskip =>
      rw [hskip] at h
      cases h

theorem next?_eq_none_of_triviaLength {c : Cursor}
    (h : triviaLength false c.rest = c.rest.length) : c.next? = none := by
  have hrest : c.skipTrivia.rest = [] := by
    rw [skipTrivia, rest_drop, h, List.drop_length]
  rw [next?, hrest]

theorem exists_of_outcomes_eq_cons {c : Cursor} {n : Nat} {outcome : Outcome}
    {rest : List Outcome} (h : c.outcomes n = outcome :: rest) :
    ∃ d k, c.next? = some (outcome, d) ∧ d.outcomes k = rest := by
  cases n with
  | zero => cases h
  | succ n =>
    rw [outcomes] at h
    cases hnext : c.next? with
    | none =>
      rw [hnext] at h
      cases h
    | some next =>
      rw [hnext] at h
      obtain ⟨rfl, hrest⟩ := List.cons.inj h
      exact ⟨next.2, n, rfl, hrest⟩

/-- The tokens in front of the first error are read one after the other, and then the error. -/
theorem lexes_of_error {c : Cursor} {n : Nat} {ts : List (Located Token)} {e : Error}
    {rest : List Outcome} (h : c.outcomes n = ts.map .ok ++ .error e :: rest) :
    ∃ d u, Lexes c ts d ∧ d.next? = some (.error e, u) := by
  induction ts generalizing c n with
  | nil =>
    obtain ⟨u, -, hnext, -⟩ := exists_of_outcomes_eq_cons h
    exact ⟨c, u, .nil, hnext⟩
  | cons token ts ih =>
    obtain ⟨v, k, hnext, hrest⟩ := exists_of_outcomes_eq_cons h
    obtain ⟨d, u, hts, hu⟩ := ih hrest
    exact ⟨d, u, .cons hnext hts, hu⟩

end Cursor

/-- A text that is no token does not begin like a word. -/
theorem Lexeme.isWordChar_of_error {first : Char} {rest : List Char} {cause : Cause}
    (h : (front first rest).reading = .error cause) : isWordChar first = false := by
  unfold front at h
  split at h
  · cases h
  · next hfirst => exact Bool.eq_false_iff.2 hfirst

/-- The text in front of the first error of a source has just the tokens in front of it. -/
theorem Stream.items_front {source front : String} {ts : List (Located Token)} {e : Error}
    {rest : List Outcome} (h : (Stream.ofText source).items = ts.map .ok ++ .error e :: rest)
    (hfront : (⟨0, e.span.start⟩ : Span).text? source = some front) :
    (Stream.ofText front).items = ts.map .ok := by
  obtain ⟨⟨offset, tail⟩, u, hlexes, hnext⟩ := Cursor.lexes_of_error (c := .ofText source) h
  obtain ⟨text, htext, hoffset⟩ := hlexes.exists_text
  obtain ⟨gap, first, more, hrest, htrivia, hreading, hstart, -⟩ := Cursor.next?_eq_error hnext
  simp only [Cursor.ofText] at htext hoffset hrest htrivia hstart
  subst hrest
  let behind := first :: (more ++ u.rest)
  have hsource : source.toList = (text ++ gap) ++ behind := by
    rw [htext, List.append_assoc]
  have hcut : front = String.ofList (text ++ gap) := by
    have hspan : (⟨0, e.span.start⟩ : Span).text? source = some (String.ofList (text ++ gap)) := by
      refine Span.text?_of_append (show source.toList = [] ++ _ from hsource) rfl ?_
      rw [hstart, hoffset, byteLength_append, Nat.add_assoc]
    exact Option.some.inj (hfront.symm.trans hspan)
  -- no word goes on across the cut, since the error does not begin like one
  have hdivides : Divides (text ++ gap) behind := by
    intro c d _ hd _
    obtain rfl : first = d := Option.some.inj hd
    exact Lexeme.isWordChar_of_error hreading
  have hread : Lexes ⟨0, (text ++ gap) ++ []⟩ ts ⟨offset, gap ++ []⟩ := by
    refine Lexes.seam (x := behind) ?_ hdivides ended_nil
    rw [← hsource]
    exact hlexes
  rw [List.append_nil, List.append_nil] at hread
  refine Stream.items_of_lexes (d := ⟨offset, gap⟩) ?_
    (Cursor.next?_eq_none_of_triviaLength (Cursor.triviaLength_cut htrivia))
  rw [hcut, Cursor.ofText, String.toList_ofList]
  exact hread

/-! ## The error that is reported -/

/-- A source that begins with a token starts there. -/
theorem ParseState.ofText_of_items {source : String} {token : Located Token}
    {items : List Outcome} (h : (Stream.ofText source).items = .ok token :: items) :
    ParseState.ofText source = .ok ⟨token, ⟨items, (Stream.ofText source).stop⟩, 0⟩ := by
  simp only [ofText, start, Stream.next, h]

/-- An error about a head that breaks off is one of syntax, about one of its correct tokens. -/
theorem Misread.about_token {ts : List (Located Token)} {err : Error} (h : Misread ts err) :
    err.cause.stage = .syntactic ∧ ∃ token ∈ ts, err.span = token.span := by
  obtain ⟨before, current, after, rfl, hderails⟩ := h
  cases hderails with
  | @comma _ _ _ _ _ _ _ _ c => exact ⟨rfl, sym .comma c, by simp, rfl⟩
  | @arrow _ _ _ _ _ d => exact ⟨rfl, sym .arrow d, by simp, rfl⟩
  | @bare _ _ b => exact ⟨rfl, sym .closeBracket b, by simp, rfl⟩

/-- A source is rejected for its first error if the tokens in front of it begin a program, or for a
head that the error breaks off. -/
theorem parseProgram_of_fork {good source : String} {ts : List (Located Token)}
    {more rest : List Outcome} {e : Error} {p : List Stmt}
    (hgood : (Stream.ofText good).items = ts.map .ok ++ more)
    (hitems : (Stream.ofText source).items = ts.map .ok ++ .error e :: rest)
    (h : parseProgram good = .ok p) : ∃ err, parseProgram source = .error err ∧
      (Misread ts err ∨ (∀ err', ¬Misread ts err') ∧ err = e.behind ts) := by
  cases ts with
  | nil =>
    refine ⟨e, ?_, .inr ⟨?_, rfl⟩⟩
    · simp only [parseProgram, ParseState.ofText, ParseState.start, Stream.next, hitems]
      rfl
    · rintro err ⟨before, current, after, heq, -⟩
      simp at heq
  | cons token ts =>
    let F : Fork := ⟨token :: ts, ⟨more, (Stream.ofText good).stop⟩, e,
      ⟨rest, (Stream.ofText source).stop⟩, fun t ht => Stream.value_ne_endOfFile
        (hitems ▸ List.mem_append_left _ (List.mem_map_of_mem ht))⟩
    let x : F.Site := ⟨[], token, ts, rfl⟩
    have hstart : ParseState.ofText good = .ok x.good := ParseState.ofText_of_items hgood
    have hstart' : ParseState.ofText source = .ok x.bad := ParseState.ofText_of_items hitems
    -- no head breaks off before the first token
    have hfree : x.Free := by
      intro z err _
      have hx : x.left + 1 = F.tokens.length := by simpa [x] using x.length_before
      have hz := z.length_before
      omega
    obtain ⟨s, t, hs, hp⟩ := done_of_run h
    obtain rfl : x.good = s := Except.ok.inj (hstart.symm.trans hs)
    obtain ⟨err, u, hfailed, hcases⟩ := x.program_bad hfree hp
    refine ⟨err, ?_, hcases⟩
    rw [parseProgram, hstart']
    show program.run x.bad = .error err
    rw [run, hfailed]

/-- Let `e` be the first error of a source, behind the tokens `ts`, and let the text in front of it
begin a program. Then the source is rejected with that error, the hint of the last token taking the
place of its note, unless the tokens end inside the head of a lambda: then it is rejected with an
error of syntax about one of the tokens. -/
theorem viable_prefix_error {source front behind : String} {ts : List (Located Token)}
    {e : Error} {rest : List Outcome} {p : List Stmt}
    (hitems : (Stream.ofText source).items = ts.map .ok ++ .error e :: rest)
    (hfront : (⟨0, e.span.start⟩ : Span).text? source = some front)
    (hviable : parseProgram (front ++ "\n" ++ behind) = .ok p) :
    ∃ err, parseProgram source = .error err ∧
      ((Misread ts err ∧ err.cause.stage = .syntactic ∧ ∃ token ∈ ts, err.span = token.span) ∨
        (∀ err', ¬Misread ts err') ∧ err = e.behind ts) := by
  have hgood := Stream.items_join (b := behind) (Stream.items_front hitems hfront)
  obtain ⟨err, herr, hcases⟩ := parseProgram_of_fork hgood hitems hviable
  refine ⟨err, herr, ?_⟩
  rcases hcases with hmisread | hclear
  · exact .inl ⟨hmisread, hmisread.about_token⟩
  · exact .inr hclear

/-- An error behind the first comma of a head: it is dropped, and the comma is blamed. -/
theorem viable_prefix_error_header :
    ∃ (ts : List (Located Token)) (e err : Error) (rest : List Outcome) (p : List Stmt),
    ts = [kw .show_ ⟨0, 4⟩, sym .openBracket ⟨5, 6⟩, word "a" ⟨6, 7⟩, sym .comma ⟨7, 8⟩] ∧
    e = ⟨.unknownCharacter '#', ⟨9, 10⟩, none⟩ ∧
    (Stream.ofText "show [a, #b] -> a;").items = ts.map .ok ++ .error e :: rest ∧
    (⟨0, e.span.start⟩ : Span).text? "show [a, #b] -> a;" = some "show [a, " ∧
    parseProgram ("show [a, " ++ "\n" ++ "b] -> a;") = .ok p ∧
    parseProgram "show [a, #b] -> a;" = .error err ∧ Misread ts err ∧
    err = ⟨.expectedToken (.symbol .closeBracket) (.symbol .comma), ⟨7, 8⟩, none⟩ := by
  let ts : List (Located Token) :=
    [kw .show_ ⟨0, 4⟩, sym .openBracket ⟨5, 6⟩, word "a" ⟨6, 7⟩, sym .comma ⟨7, 8⟩]
  have hitems : (Stream.ofText "show [a, #b] -> a;").items =
      ts.map .ok ++ .error ⟨.unknownCharacter '#', ⟨9, 10⟩, none⟩ ::
        [word "b" ⟨10, 11⟩, sym .closeBracket ⟨11, 12⟩, sym .arrow ⟨13, 15⟩, word "a" ⟨16, 17⟩,
          sym .semicolon ⟨17, 18⟩].map .ok := rfl
  have hfront : (⟨0, 9⟩ : Span).text? "show [a, #b] -> a;" = some "show [a, " := by decide +kernel
  have hok : (parseProgram ("show [a, " ++ "\n" ++ "b] -> a;")).isOk = true := by decide +kernel
  have herr : parseProgram "show [a, #b] -> a;" =
      .error ⟨.expectedToken (.symbol .closeBracket) (.symbol .comma), ⟨7, 8⟩, none⟩ :=
    eq_error_of_failure? (by decide +kernel)
  cases hp : parseProgram ("show [a, " ++ "\n" ++ "b] -> a;") with
  | error e =>
    rw [hp] at hok
    cases hok
  | ok p =>
    obtain ⟨err, hfailed, ⟨hmisread, -⟩ | ⟨hclear, -⟩⟩ := viable_prefix_error hitems hfront hp
    · exact ⟨ts, _, err, _, p, rfl, rfl, hitems, hfront, rfl, hfailed, hmisread,
        Except.error.inj (hfailed.symm.trans herr)⟩
    · -- the head could go on with `b] ->`
      have hbracket : Unnamed ([] ++ [kw .show_ ⟨0, 4⟩]) := unnamed_concat (by simp)
      have hhead : [] ++ [word "b" ⟨10, 11⟩, sym .closeBracket ⟨11, 12⟩, sym .arrow ⟨13, 15⟩] =
          [word "b" ⟨10, 11⟩] ++ [sym .closeBracket ⟨11, 12⟩, sym .arrow ⟨13, 15⟩] := rfl
      exact absurd ⟨_, _, _, rfl, .comma hbracket .one (List.cons_ne_nil _ _) hhead⟩ (hclear _)

end Resin
