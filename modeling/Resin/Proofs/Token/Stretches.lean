import Resin.Proofs.Parse.Moving
import Resin.Proofs.Token.Seams

/-!
# Stretches of a source

`Lexes c ts d` says that reading from the place `c` gives the tokens `ts` and ends at the place `d`.
What comes behind `d` plays no part as long as no word goes on across it (`Lexes.seam`), and neither
does the offset of `c` (`Lexes.move`).

* `Stream.items_join`: the outcomes of two texts, a line feed between them;
* `Stream.items_slice`: the outcomes of the stretch of a source from one token to another.
-/

namespace Resin

open Text

/-! ## One token -/

/-- At a place stands a gap of separators and comments, and then the text of a token. -/
structure Piece (c : Cursor) (gap : List Char) (first : Char) (more : List Char)
    (token : Located Token) (d : Cursor) : Prop where
  rest : c.rest = gap ++ first :: (more ++ d.rest)
  trivia : Cursor.triviaLength false c.rest = gap.length
  front : Lexeme.front first (more ++ d.rest) = ⟨.ok token.value, more.length⟩
  start : token.span.start = c.offset + byteLength gap
  stop : token.span.stop = token.span.start + byteLength (first :: more)
  offset : d.offset = token.span.stop

namespace Cursor

/-- Whether a comment goes on behind a character between two tokens; nothing if a token begins with
the character. -/
def skip? (comment : Bool) (c : Char) : Option Bool :=
  if comment then some (c ≠ '\n')
  else if isSeparator c then some false
  else if c = '$' then some true
  else none

theorem triviaLength_cons (comment : Bool) (c : Char) (cs : List Char) :
    triviaLength comment (c :: cs) =
      match skip? comment c with
      | some comment => triviaLength comment cs + 1
      | none => 0 := by
  rw [triviaLength, skip?]
  split
  · rfl
  · split
    · rfl
    · split <;> rfl

theorem triviaLength_le (comment : Bool) (cs : List Char) :
    triviaLength comment cs ≤ cs.length := by
  induction cs generalizing comment with
  | nil => exact Nat.le_refl 0
  | cons c cs ih =>
    rw [triviaLength_cons]
    split
    · exact Nat.succ_le_succ (ih _)
    · exact Nat.zero_le _

/-- The gap in front of a lexeme does not depend on what follows the first character of it. -/
theorem triviaLength_gap {comment : Bool} {gap : List Char} {first : Char} {tail : List Char}
    (tail' : List Char) (h : triviaLength comment (gap ++ first :: tail) = gap.length) :
    triviaLength comment (gap ++ first :: tail') = gap.length := by
  induction gap generalizing comment with
  | nil =>
    simp only [List.nil_append, triviaLength_cons] at h ⊢
    split
    · next hskip =>
      rw [hskip] at h
      cases h
    · rfl
  | cons c gap ih =>
    simp only [List.cons_append, triviaLength_cons, List.length_cons] at h ⊢
    split
    · next hskip =>
      rw [hskip] at h
      rw [ih (Nat.add_right_cancel h)]
    · next hskip =>
      rw [hskip] at h
      cases h

/-- A lexeme begins behind the gap in front of it. -/
theorem triviaLength_behind {comment : Bool} {gap : List Char} {first : Char} {tail : List Char}
    (h : triviaLength comment (gap ++ first :: tail) = gap.length) :
    triviaLength false (first :: tail) = 0 := by
  induction gap generalizing comment with
  | nil =>
    cases comment with
    | false => exact h
    | true => cases h
  | cons c gap ih =>
    simp only [List.cons_append, triviaLength_cons, List.length_cons] at h
    split at h
    · exact ih (Nat.add_right_cancel h)
    · cases h

end Cursor

theorem Cursor.next?_eq_ok_iff {c d : Cursor} {token : Located Token} :
    c.next? = some (.ok token, d) ↔ ∃ gap first more, Piece c gap first more token d := by
  constructor
  · intro h
    simp only [next?] at h
    split at h
    · cases h
    · next first rest hrest =>
      simp only [Option.some.injEq, Prod.mk.injEq] at h
      obtain ⟨houtcome, hd⟩ := h
      cases hfront : Lexeme.front first rest with
      | mk reading n =>
        rw [hfront] at houtcome hd
        cases reading with
        | error cause => cases houtcome
        | ok value =>
          obtain ⟨more, after, rfl, rfl, -⟩ := Lexeme.front_bounded hfront
          cases houtcome
          have hafter : d.rest = after := by
            rw [← hd, rest_drop, hrest]
            simp
          have hgap : (c.rest.take (triviaLength false c.rest)).length =
              triviaLength false c.rest :=
            List.length_take_of_le (triviaLength_le ..)
          refine ⟨c.rest.take (triviaLength false c.rest), first, more, ?_, hgap.symm, ?_, rfl, ?_,
            ?_⟩
          · have hdrop : c.rest.drop (triviaLength false c.rest) = first :: (more ++ after) := hrest
            rw [hafter, ← hdrop, List.take_append_drop]
          · rw [hafter, hfront]
          · simp only [drop, hrest]
            simp
          · rw [← hd]
  · rintro ⟨gap, first, more, h⟩
    obtain ⟨rest, trivia, front, start, stop, offset⟩ := h
    have hskip : c.skipTrivia = ⟨token.span.start, first :: (more ++ d.rest)⟩ := by
      unfold skipTrivia drop
      rw [trivia, rest, List.take_left, List.drop_left, start]
    have hdrop : c.skipTrivia.drop (more.length + 1) = d := by
      rw [hskip, drop, List.take_succ_cons, List.drop_succ_cons, List.take_left, List.drop_left,
        ← stop, ← offset]
    rw [hskip] at hdrop
    simp only [next?, hskip, front, hdrop, offset]

/-! ## Tokens one after the other -/

/-- Reading from `c` gives the tokens `ts` one after the other and ends at `d`. -/
inductive Lexes : Cursor → List (Located Token) → Cursor → Prop
  | nil {c : Cursor} : Lexes c [] c
  | cons {c u d : Cursor} {token : Located Token} {ts : List (Located Token)} :
    c.next? = some (.ok token, u) → Lexes u ts d → Lexes c (token :: ts) d

namespace Lexes

variable {c d : Cursor} {ts us : List (Located Token)}

theorem append_iff : Lexes c (ts ++ us) d ↔ ∃ u, Lexes c ts u ∧ Lexes u us d := by
  constructor
  · intro h
    induction ts generalizing c with
    | nil => exact ⟨c, .nil, h⟩
    | cons token ts ih =>
      cases h with
      | cons hnext hrest =>
        obtain ⟨u, hts, hus⟩ := ih hrest
        exact ⟨u, .cons hnext hts, hus⟩
  · rintro ⟨u, hts, hus⟩
    induction hts with
    | nil => exact hus
    | cons hnext _ ih => exact .cons hnext (ih hus)

/-- What is read is cut off the front of the text. -/
theorem exists_text (h : Lexes c ts d) : ∃ text, c.rest = text ++ d.rest ∧
    d.offset = c.offset + byteLength text := by
  induction h with
  | nil => exact ⟨[], rfl, rfl⟩
  | @cons c u d token ts hnext _ ih =>
    obtain ⟨gap, first, more, h⟩ := Cursor.next?_eq_ok_iff.1 hnext
    obtain ⟨text, hrest, hoffset⟩ := ih
    refine ⟨gap ++ first :: more ++ text, ?_, ?_⟩
    · rw [h.rest, hrest]
      simp
    · rw [hoffset, h.offset, h.stop, h.start]
      simp only [byteLength_append, byteLength_cons]
      omega

/-- What is read stays the same when the text behind it is replaced. -/
theorem seam {o o' : Nat} {p q x y : List Char} (h : Lexes ⟨o, p ++ x⟩ ts ⟨o', q ++ x⟩)
    (hx : Divides p x) (hy : Ended y) : Lexes ⟨o, p ++ y⟩ ts ⟨o', q ++ y⟩ := by
  generalize hc : (⟨o, p ++ x⟩ : Cursor) = c at h
  generalize hd : (⟨o', q ++ x⟩ : Cursor) = d at h
  induction h generalizing o p with
  | nil =>
    subst hc
    simp only [Cursor.mk.injEq, List.append_cancel_right_eq] at hd
    obtain ⟨rfl, rfl⟩ := hd
    exact .nil
  | @cons c u d token ts hnext hrest ih =>
    subst hc hd
    obtain ⟨gap, first, more, h⟩ := Cursor.next?_eq_ok_iff.1 hnext
    obtain ⟨text, htext, -⟩ := hrest.exists_text
    obtain ⟨offset, rest⟩ := u
    -- the token ends in front of the seam
    simp only at htext
    have hu : rest = (text ++ q) ++ x := by rw [htext, List.append_assoc]
    have hp : p = gap ++ first :: (more ++ (text ++ q)) := by
      have heq := h.rest
      simp only [hu] at heq
      refine (List.append_left_inj x).1 ?_
      rw [heq]
      simp
    subst hu
    refine .cons (u := ⟨offset, (text ++ q) ++ y⟩) (Cursor.next?_eq_ok_iff.2
      ⟨gap, first, more, by rw [hp]; simp, ?_, ?_, h.start, h.stop, h.offset⟩)
      (ih (hx.of_suffix ?_) rfl rfl)
    · have htrivia := h.trivia
      rw [h.rest] at htrivia
      have := Cursor.triviaLength_gap (more ++ (text ++ q) ++ y) htrivia
      rw [hp]
      simpa using this
    · have hfront := h.front
      rw [← List.append_assoc] at hfront ⊢
      refine Lexeme.front_seam hfront (by simp) (hx.of_suffix ?_) hy
      exact ⟨gap, hp.symm⟩
    · exact ⟨gap ++ first :: more, by rw [hp]; simp⟩

end Lexes

/-! ## All outcomes -/

namespace Cursor

variable {c d : Cursor} {ts : List (Located Token)} {n : Nat}

theorem outcomes_of_next?_eq_none (h : c.next? = none) (n : Nat) : outcomes n c = [] := by
  cases n with
  | zero => rfl
  | succ n => rw [outcomes, h]

theorem outcomes_congr (h : c.next? = d.next?) (n : Nat) : outcomes n c = outcomes n d := by
  cases n with
  | zero => rfl
  | succ n => rw [outcomes, outcomes, h]

theorem next?_of_rest_eq_nil (h : c.rest = []) : c.next? = none := by
  obtain ⟨offset, rest⟩ := c
  subst h
  rfl

/-- No more outcomes come than there are characters. -/
theorem outcomes_of_le {m : Nat} (hn : c.rest.length ≤ n) (hm : c.rest.length ≤ m) :
    outcomes n c = outcomes m c := by
  induction n generalizing c m with
  | zero =>
    have hnone := next?_of_rest_eq_nil (List.eq_nil_of_length_eq_zero (Nat.le_zero.1 hn))
    rw [outcomes_of_next?_eq_none hnone, outcomes_of_next?_eq_none hnone]
  | succ n ih =>
    cases hnext : c.next? with
    | none => rw [outcomes_of_next?_eq_none hnext, outcomes_of_next?_eq_none hnext]
    | some next =>
      have hlt := length_rest_lt_of_next? hnext
      obtain ⟨m, rfl⟩ : ∃ k, m = k + 1 := ⟨m - 1, by omega⟩
      simp only [outcomes, hnext]
      rw [ih (m := m) (by omega) (by omega)]

theorem outcomes_of_lexes (h : Lexes c ts d) (n : Nat) :
    outcomes (ts.length + n) c = ts.map Except.ok ++ outcomes n d := by
  induction h with
  | nil => rw [List.length_nil, Nat.zero_add, List.map_nil, List.nil_append]
  | cons hnext _ ih =>
    rw [List.length_cons, Nat.add_right_comm, outcomes, hnext]
    simp only [ih, List.map_cons, List.cons_append]

/-- A text without errors is read up to a place behind which only separators and comments stand. -/
theorem lexes_of_outcomes (hn : c.rest.length ≤ n) (h : outcomes n c = ts.map Except.ok) :
    ∃ d, Lexes c ts d ∧ d.next? = none := by
  induction n generalizing c ts with
  | zero =>
    obtain ⟨offset, rest⟩ := c
    obtain rfl := List.eq_nil_of_length_eq_zero (Nat.le_zero.1 hn)
    obtain rfl : ts = [] := List.map_eq_nil_iff.1 h.symm
    exact ⟨_, .nil, rfl⟩
  | succ n ih =>
    simp only [outcomes] at h
    cases hnext : c.next? with
    | none =>
      rw [hnext] at h
      obtain rfl : ts = [] := List.map_eq_nil_iff.1 h.symm
      exact ⟨c, .nil, hnext⟩
    | some next =>
      obtain ⟨outcome, after⟩ := next
      have hlt := length_rest_lt_of_next? hnext
      rw [hnext] at h
      obtain ⟨token, ts, rfl, rfl, hrest⟩ := List.map_eq_cons_iff.1 h.symm
      obtain ⟨d, hd, hend⟩ := ih (by omega) hrest.symm
      exact ⟨d, .cons hnext hd, hend⟩

/-- The place in the same text, if the source starts `k` bytes earlier. -/
def shift (k : Nat) (c : Cursor) : Cursor :=
  ⟨c.offset + k, c.rest⟩

theorem drop_shift (k n : Nat) (c : Cursor) : (c.shift k).drop n = (c.drop n).shift k := by
  simp only [drop, shift, Nat.add_right_comm]

theorem next?_shift (k : Nat) (c : Cursor) :
    (c.shift k).next? = c.next?.map fun next => (next.1.move (· + k), next.2.shift k) := by
  have hskip : (c.shift k).skipTrivia = c.skipTrivia.shift k := drop_shift ..
  simp only [next?, hskip, drop_shift]
  cases hrest : c.skipTrivia.rest with
  | nil => simp [shift, hrest]
  | cons first rest =>
    simp only [shift, hrest]
    cases (Lexeme.front first rest).reading with
    | ok token => rfl
    | error cause =>
      simp [Outcome.move, Error.move, Span.move, Nat.add_right_comm]

theorem outcomes_shift (k n : Nat) (c : Cursor) :
    outcomes n (c.shift k) = (outcomes n c).map (Outcome.move (· + k)) := by
  induction n generalizing c with
  | zero => rfl
  | succ n ih =>
    simp only [outcomes, next?_shift]
    cases c.next? with
    | none => rfl
    | some next => simp only [Option.map_some, ih, List.map_cons]

/-! ## Joining texts -/

/-- A line feed ends a comment, and goes on with the gap in front of the next lexeme. -/
theorem triviaLength_join {comment : Bool} {gap : List Char} (rest : List Char)
    (h : triviaLength comment gap = gap.length) :
    triviaLength comment (gap ++ '\n' :: rest) = gap.length + 1 + triviaLength false rest := by
  induction gap generalizing comment with
  | nil =>
    have hskip : skip? comment '\n' = some false := by cases comment <;> rfl
    rw [List.nil_append, triviaLength_cons, hskip, List.length_nil]
    exact Nat.add_comm ..
  | cons c gap ih =>
    simp only [List.cons_append, triviaLength_cons, List.length_cons] at h ⊢
    split
    · next hskip =>
      rw [hskip] at h
      rw [ih (Nat.add_right_cancel h), Nat.add_right_comm]
    · next hskip =>
      rw [hskip] at h
      cases h

theorem triviaLength_of_next?_eq_none (h : c.next? = none) :
    triviaLength false c.rest = c.rest.length := by
  have hle := triviaLength_le false c.rest
  simp only [next?] at h
  split at h
  · next hrest =>
    have hlen := List.drop_eq_nil_iff.1 hrest
    omega
  · cases h

/-- Behind the last token of a text and a line feed, the next token is that of the text which
follows. -/
theorem next?_join (h : c.next? = none) (rest : List Char) :
    (⟨c.offset, c.rest ++ '\n' :: rest⟩ : Cursor).next? =
      (⟨c.offset + byteLength c.rest + 1, rest⟩ : Cursor).next? := by
  have hskip : (⟨c.offset, c.rest ++ '\n' :: rest⟩ : Cursor).skipTrivia =
      (⟨c.offset + byteLength c.rest + 1, rest⟩ : Cursor).skipTrivia := by
    unfold skipTrivia drop
    rw [triviaLength_join rest (triviaLength_of_next?_eq_none h), Nat.add_assoc,
      List.take_length_add_append, List.drop_length_add_append, Nat.add_comm 1,
      List.take_succ_cons, List.drop_succ_cons, byteLength_append, byteLength_cons]
    simp only [Cursor.mk.injEq, and_true]
    have : '\n'.utf8Size = 1 := by decide
    omega
  simp only [next?, hskip]

end Cursor

/-- A source that is read up to its end gives the tokens that were read. -/
theorem Stream.items_of_lexes {source : String} {ts : List (Located Token)} {d : Cursor}
    (h : Lexes (.ofText source) ts d) (hend : d.next? = none) :
    (Stream.ofText source).items = ts.map Except.ok := by
  let n := source.toList.length
  calc (Stream.ofText source).items
      = Cursor.outcomes (ts.length + n) (.ofText source) :=
        Cursor.outcomes_of_le (Nat.le_refl _) (Nat.le_add_left _ _)
    _ = ts.map Except.ok ++ Cursor.outcomes n d := Cursor.outcomes_of_lexes h n
    _ = ts.map Except.ok := by
        rw [Cursor.outcomes_of_next?_eq_none hend, List.append_nil]

/-- The outcomes of two texts with a line feed between them, the first of them without errors. -/
theorem Stream.items_join {a b : String} {ts : List (Located Token)}
    (h : (Stream.ofText a).items = ts.map Except.ok) :
    (Stream.ofText (a ++ "\n" ++ b)).items =
      ts.map Except.ok ++
        (Stream.ofText b).items.map (Outcome.move (· + (byteLength a.toList + 1))) := by
  obtain ⟨d, hlexes, hend⟩ :=
    Cursor.lexes_of_outcomes (c := ⟨0, a.toList⟩) (Nat.le_refl _) h
  obtain ⟨text, htext, hoffset⟩ := hlexes.exists_text
  obtain ⟨offset, rest⟩ := d
  simp only at htext hoffset
  have hjoined : Lexes ⟨0, a.toList ++ '\n' :: b.toList⟩ ts ⟨offset, rest ++ '\n' :: b.toList⟩ := by
    refine Lexes.seam (x := []) ?_ (divides_nil_right _) ?_
    · rw [List.append_nil, List.append_nil]
      exact hlexes
    · intro c hc
      cases hc
      rfl
  have htoList : (a ++ "\n" ++ b).toList = a.toList ++ '\n' :: b.toList := by simp
  let n := (a ++ "\n" ++ b).toList.length
  have hlen : b.toList.length ≤ n := by simp [n, htoList]; omega
  have hafter : (⟨offset, rest ++ '\n' :: b.toList⟩ : Cursor).next? =
      (Cursor.shift (byteLength a.toList + 1) ⟨0, b.toList⟩).next? := by
    rw [Cursor.next?_join (c := ⟨offset, rest⟩) hend, htext, byteLength_append, hoffset]
    simp only [Cursor.shift, Nat.add_assoc]
  calc (Stream.ofText (a ++ "\n" ++ b)).items
      = Cursor.outcomes n ⟨0, a.toList ++ '\n' :: b.toList⟩ := by
        simp only [Stream.ofText, htoList, n]
    _ = Cursor.outcomes (ts.length + n) ⟨0, a.toList ++ '\n' :: b.toList⟩ :=
        Cursor.outcomes_of_le (by simp [n, htoList]) (by simp [n, htoList])
    _ = ts.map Except.ok ++ Cursor.outcomes n ⟨offset, rest ++ '\n' :: b.toList⟩ :=
        Cursor.outcomes_of_lexes hjoined n
    _ = ts.map Except.ok ++
          Cursor.outcomes n (Cursor.shift (byteLength a.toList + 1) ⟨0, b.toList⟩) := by
        rw [Cursor.outcomes_congr hafter]
    _ = _ := by
        rw [Cursor.outcomes_shift, Cursor.outcomes_of_le hlen (Nat.le_refl _)]
        rfl

/-! ## Cutting texts -/

namespace Text

/-- The characters that take the first `n` bytes of a text and those behind them, unless the text is
shorter or the cut falls inside a character. -/
def splitBytes? : Nat → List Char → Option (List Char × List Char)
  | 0, cs => some ([], cs)
  | _ + 1, [] => none
  | n + 1, c :: cs =>
    if c.utf8Size ≤ n + 1 then
      (splitBytes? (n + 1 - c.utf8Size) cs).map fun parts => (c :: parts.1, parts.2)
    else none

theorem splitBytes?_byteLength (before after : List Char) :
    splitBytes? (byteLength before) (before ++ after) = some (before, after) := by
  induction before with
  | nil => cases after <;> rfl
  | cons c before ih =>
    obtain ⟨n, hn⟩ : ∃ n, byteLength (c :: before) = n + 1 := by
      have := c.utf8Size_pos
      exact ⟨byteLength (c :: before) - 1, by rw [byteLength_cons]; omega⟩
    rw [hn, List.cons_append, splitBytes?]
    rw [byteLength_cons] at hn
    rw [if_pos (by omega), ← hn, Nat.add_sub_cancel_left, ih]
    rfl

end Text

/-- The text at a span of a source, if both ends of the span lie between characters. -/
def Span.text? (span : Span) (source : String) : Option String := do
  if span.stop < span.start then none
  else
    let parts ← splitBytes? span.start source.toList
    let inner ← splitBytes? (span.stop - span.start) parts.2
    some (String.ofList inner.1)

theorem Span.text?_of_append {span : Span} {source : String} {before text after : List Char}
    (hsource : source.toList = before ++ (text ++ after)) (hstart : span.start = byteLength before)
    (hstop : span.stop = span.start + byteLength text) :
    span.text? source = some (String.ofList text) := by
  unfold Span.text?
  rw [if_neg (by omega), hsource, hstart, splitBytes?_byteLength]
  simp only [Option.bind_eq_bind, Option.bind_some]
  rw [hstop, hstart, Nat.add_sub_cancel_left, splitBytes?_byteLength]
  rfl

theorem Divides.append {before after : List Char} (h : Divides before after) (hne : before ≠ [])
    (front : List Char) : Divides (front ++ before) after := by
  intro c d hc
  rw [List.getLast?_append, List.getLast?_eq_some_getLast hne, Option.some_or,
    ← List.getLast?_eq_some_getLast hne] at hc
  exact h c d hc

/-- Behind the last of some tokens no word goes on. -/
theorem Lexes.ends {c d : Cursor} {ts : List (Located Token)} {text : List Char}
    (h : Lexes c ts d) (hne : ts ≠ []) (htext : c.rest = text ++ d.rest) :
    d.offset = (extent ts).stop ∧ Divides text d.rest := by
  obtain ⟨init, last, rfl⟩ := (List.eq_nil_or_concat ts).resolve_left hne
  rw [List.concat_eq_append] at h ⊢
  obtain ⟨u, hinit, hlast⟩ := Lexes.append_iff.1 h
  obtain ⟨front, hfront, -⟩ := hinit.exists_text
  cases hlast with
  | cons hnext hnil =>
    cases hnil
    obtain ⟨gap, first, more, hpiece⟩ := Cursor.next?_eq_ok_iff.1 hnext
    obtain ⟨more', after, hcut, hlen, hdivides⟩ := Lexeme.front_bounded hpiece.front
    obtain ⟨rfl, rfl⟩ := List.append_inj hcut hlen.symm
    refine ⟨by rw [extent_concat_stop, hpiece.offset], ?_⟩
    have heq : text = (front ++ gap) ++ first :: more := by
      refine (List.append_left_inj d.rest).1 ?_
      rw [← htext, hfront, hpiece.rest]
      simp
    rw [heq]
    exact hdivides.append (List.cons_ne_nil _ _) _

/-- The stretch of a source from one token to another has just the tokens between them. -/
theorem Stream.items_slice {source : String} {us vs ws : List (Located Token)}
    (h : (Stream.ofText source).items = (us ++ vs ++ ws).map Except.ok) (hvs : vs ≠ []) :
    ∃ text, (extent vs).text? source = some text ∧
      (Stream.ofText text).items.map (Outcome.move (· + (extent vs).start)) =
        vs.map Except.ok := by
  obtain ⟨d, hlexes, -⟩ :=
    Cursor.lexes_of_outcomes (c := ⟨0, source.toList⟩) (Nat.le_refl _) h
  obtain ⟨e, hlexes, -⟩ := Lexes.append_iff.1 hlexes
  obtain ⟨c, hus, hlexes⟩ := Lexes.append_iff.1 hlexes
  obtain ⟨before, hbefore, hoffset⟩ := hus.exists_text
  cases hlexes with
  | nil => exact absurd rfl hvs
  | @cons _ u _ token vs hnext hrest =>
    obtain ⟨gap, first, more, hpiece⟩ := Cursor.next?_eq_ok_iff.1 hnext
    -- the same tokens are read from the start of the first one on
    let start : Cursor := ⟨token.span.start, first :: (more ++ u.rest)⟩
    have hstart : Lexes start (token :: vs) e := by
      have htrivia := hpiece.trivia
      rw [hpiece.rest] at htrivia
      exact .cons (Cursor.next?_eq_ok_iff.2 ⟨[], first, more, rfl,
        Cursor.triviaLength_behind htrivia, hpiece.front, rfl, hpiece.stop, hpiece.offset⟩) hrest
    obtain ⟨text, htext, hend⟩ := hstart.exists_text
    obtain ⟨hstop, hdivides⟩ := hstart.ends hvs htext
    have hcut : Lexes ⟨token.span.start, text ++ []⟩ (token :: vs) ⟨e.offset, [] ++ []⟩ := by
      refine Lexes.seam (x := e.rest) ?_ hdivides ended_nil
      rw [← htext]
      exact hstart
    have hsource : source.toList = (before ++ gap) ++ (text ++ e.rest) := by
      rw [← htext, show source.toList = _ from hbefore, hpiece.rest]
      simp [start]
    have hfrom : token.span.start = byteLength (before ++ gap) := by
      rw [hpiece.start, hoffset, byteLength_append, Nat.zero_add]
    refine ⟨String.ofList text, Span.text?_of_append hsource hfrom (hstop ▸ hend), ?_⟩
    have hshift : (⟨token.span.start, text⟩ : Cursor) =
        Cursor.shift token.span.start ⟨0, text⟩ := by
      rw [Cursor.shift, Nat.zero_add]
    have hnothing : (⟨e.offset, [] ++ []⟩ : Cursor).next? = none := Cursor.next?_of_rest_eq_nil rfl
    have hfuel : Cursor.outcomes text.length ⟨0, text⟩ =
        Cursor.outcomes ((token :: vs).length + text.length) ⟨0, text⟩ :=
      Cursor.outcomes_of_le (Nat.le_refl _) (Nat.le_add_left ..)
    have houtcomes := Cursor.outcomes_of_lexes hcut text.length
    rw [Cursor.outcomes_of_next?_eq_none hnothing, List.append_nil, List.append_nil, hshift,
      Cursor.outcomes_shift, ← hfuel] at houtcomes
    simp only [Stream.ofText, String.toList_ofList]
    exact houtcomes

end Resin
