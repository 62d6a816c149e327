import Resin.Proofs.Token.Lexing
import Resin.Proofs.Token.Order

/-!
# How readings tile a source

A source is read by one call after the other. `place source k` is where reading stands behind `k`
calls, and `reading source k` is what the next call gives.

From the place where a call starts to the place where it ends stand a gap and a text, and the call
reads the text off (`Tile`). A gap has only separators and comments in it (`IsGap`), and a text is as
long as a token of its kind can be (`Longest`). So no part of a source is left out or read twice, bad
lexemes included, and every call gets further until the end is reached (`readings_tile`).

Where a token ends does not depend on what stands further on, so any stretch of tokens is read again
from its own text (`lexing_slice`).
-/

namespace Resin

open Text

/-! ## Gaps -/

/-- The text in front of `rest` is separators and comments. A comment goes from a dollar sign up to
a line feed or up to the end. -/
inductive IsGap (rest : List Char) : List Char → Prop
  | nil : IsGap rest []
  | separator {c : Char} {gap : List Char} :
    c ∈ [' ', '\t', '\r', '\n', '\x0c'] → IsGap rest gap → IsGap rest (c :: gap)
  | comment {text gap : List Char} :
    '\n' ∉ text → (∀ c, (gap ++ rest).head? = some c → c = '\n') → IsGap rest gap →
    IsGap rest ('$' :: (text ++ gap))

theorem mem_separators {c : Char} (h : Cursor.isSeparator c = true) :
    c ∈ [' ', '\t', '\r', '\n', '\x0c'] := by
  simpa [Cursor.isSeparator, or_assoc] using h

mutual

/-- What is skipped between two lexemes is a gap. -/
theorem isGap_of_triviaLength {rest : List Char} : ∀ {gap : List Char},
    Cursor.triviaLength false (gap ++ rest) = gap.length → IsGap rest gap
  | [], _ => .nil
  | c :: gap, h => by
    rw [List.cons_append, Cursor.triviaLength] at h
    simp only [Bool.false_eq_true, if_false, List.length_cons] at h
    split at h
    · next hc =>
      exact .separator (mem_separators hc) (isGap_of_triviaLength (Nat.add_right_cancel h))
    · split at h
      · next hc =>
        obtain ⟨text, gap', rfl, hfeed, hend, hgap⟩ :=
          isGap_of_triviaLength_comment (Nat.add_right_cancel h)
        exact hc ▸ .comment hfeed hend hgap
      · cases h

/-- What is skipped inside a comment is the rest of the comment and a gap. -/
theorem isGap_of_triviaLength_comment {rest : List Char} : ∀ {gap : List Char},
    Cursor.triviaLength true (gap ++ rest) = gap.length →
    ∃ text gap', gap = text ++ gap' ∧ '\n' ∉ text ∧
      (∀ c, (gap' ++ rest).head? = some c → c = '\n') ∧ IsGap rest gap'
  | [], h => by
    cases rest with
    | nil => exact ⟨[], [], rfl, List.not_mem_nil, by simp, .nil⟩
    | cons c rest => simp [Cursor.triviaLength] at h
  | c :: gap, h => by
    rw [List.cons_append, Cursor.triviaLength, if_pos rfl, List.length_cons] at h
    have hrest := Nat.add_right_cancel h
    by_cases hc : c = '\n'
    · subst hc
      refine ⟨[], '\n' :: gap, rfl, List.not_mem_nil, fun c hc => (Option.some.inj hc).symm, ?_⟩
      exact .separator (by simp) (isGap_of_triviaLength (by simpa using hrest))
    · have hcomment : Cursor.triviaLength true (gap ++ rest) = gap.length := by
        simpa [hc] using hrest
      obtain ⟨text, gap', rfl, hfeed, hend, hgap⟩ := isGap_of_triviaLength_comment hcomment
      exact ⟨c :: text, gap', rfl, by simp [hfeed, Ne.symm hc], hend, hgap⟩

end

/-! ## Texts of tokens -/

/-- The text is one or more word characters. -/
def WordShaped (text : List Char) : Prop :=
  text ≠ [] ∧ ∀ c ∈ text, Lexeme.isWordChar c = true

/-- The text that a token is read off cannot be longer, with `after` behind it: the next character
does not go on with a word or a number, and no longer symbol stands at the same place. -/
def Longest (value : Token) (text after : List Char) : Prop :=
  match value with
  | .name _ | .keyword _ | .type _ | .bool _ =>
    WordShaped text ∧ ∀ c, after.head? = some c → ¬ WordShaped (text ++ [c])
  | .number v =>
    v.WrittenAs text ∧ ∀ c, after.head? = some c → ∀ w : Number, ¬ w.WrittenAs (text ++ [c])
  | .symbol s =>
    text = s.spelling.toList ∧
      ∀ s' : Symbol, s'.spelling.toList <+: text ++ after → s'.spelling.length ≤ s.spelling.length
  | .input => text = ":input".toList ∧ ∀ c, after.head? = some c → Lexeme.isWordChar c = false
  | .text _ _ | .raw _ => True
  | .null | .undefined | .endOfFile => False

theorem longest_ofWord {text after : List Char} (hword : WordShaped text)
    (hafter : ∀ c, after.head? = some c → Lexeme.isWordChar c = false) (w : String) :
    Longest (.ofWord w) text after := by
  have hmax : ∀ c, after.head? = some c → ¬ WordShaped (text ++ [c]) := by
    intro c hc hlonger
    have htrue := hlonger.2 c (by simp)
    rw [hafter c hc] at htrue
    cases htrue
  unfold Token.ofWord
  repeat' split
  all_goals exact ⟨hword, hmax⟩

/-- What goes on with a number is a digit, or the first point in it. -/
theorem Number.WrittenAs.last {v : Number} {text : List Char} {c : Char}
    (h : v.WrittenAs (text ++ [c])) : c.isDigit = true ∨ c = '.' ∧ '.' ∉ text := by
  obtain ⟨first, whole, hfirst, hwhole, hshape⟩ := h
  have hdigits : ∀ d ∈ first :: whole, d.isDigit = true := by simpa [hfirst] using hwhole
  rcases hshape with ⟨htext, -⟩ | ⟨fraction, hfraction, htext, -⟩
  · exact .inl (hdigits c (htext ▸ by simp))
  · rcases List.eq_nil_or_concat fraction with rfl | ⟨init, last, rfl⟩
    · obtain ⟨rfl, hc⟩ := List.append_inj' htext rfl
      exact .inr ⟨List.singleton_inj.1 hc, fun hmem => absurd (hdigits '.' hmem) (by decide)⟩
    · have hlast : text ++ [c] = (first :: whole ++ '.' :: init) ++ [last] := by simp [htext]
      obtain rfl := List.singleton_inj.1 (List.append_inj' hlast rfl).2
      exact .inl (hfraction c (by simp))

theorem Symbol.mem_list (s : Symbol) : s ∈ Symbol.list := by
  cases s <;> decide

/-- Of all symbols that a text starts with, the one that is read is the longest. -/
theorem Symbol.length_le_of_longest? {cs : List Char} {s s' : Symbol}
    (h : Symbol.longest? cs = some s) (h' : s'.spelling.toList <+: cs) :
    s'.spelling.length ≤ s.spelling.length := by
  have hsorted : Symbol.list.Pairwise fun a b => b.spelling.length ≤ a.spelling.length := by
    decide
  obtain ⟨-, before, after, hlist, hnone⟩ := List.find?_eq_some_iff_append.1 h
  have hmem := s'.mem_list
  rw [hlist] at hmem hsorted
  rcases List.mem_append.1 hmem with hmem | hmem
  · -- the symbols in front of the one that is found do not fit
    have hnot := hnone s' hmem
    simp [List.isPrefixOf_iff_prefix.2 h'] at hnot
  · rcases List.mem_cons.1 hmem with rfl | hmem
    · exact Nat.le_refl _
    · exact (List.pairwise_cons.1 (List.pairwise_append.1 hsorted).2.1).1 s' hmem

namespace Lexeme

variable {first : Char} {rest more after : List Char} {value : Token}

theorem not_of_head?_dropWhile {P : Char → Bool} {c : Char}
    (h : (rest.dropWhile P).head? = some c) : P c = false := by
  have hnot := List.head?_dropWhile_not P rest
  rwa [h] at hnot

/-- A run that is as long as it can be has only its own characters, and none of them follows. -/
theorem run_of_length {P : Char → Bool}
    (h : ((more ++ after).takeWhile P).length = more.length) :
    (∀ c ∈ more, P c = true) ∧ ∀ c, after.head? = some c → P c = false := by
  obtain ⟨hmore, hafter⟩ := List.append_inj
    (List.takeWhile_append_dropWhile (p := P) (l := more ++ after)) h
  refine ⟨fun c hc => ?_, fun c hc => ?_⟩
  · rw [← hmore] at hc
    exact List.all_eq_true.1 List.all_takeWhile c hc
  · rw [← hafter] at hc
    exact not_of_head?_dropWhile hc

theorem word_longest (hfirst : isWordChar first = true)
    (h : word first (more ++ after) = ⟨.ok value, more.length⟩) :
    Longest value (first :: more) after := by
  simp only [word, Lexeme.mk.injEq, Except.ok.injEq] at h
  obtain ⟨rfl, hlen⟩ := h
  obtain ⟨hmore, hafter⟩ := run_of_length hlen
  exact longest_ofWord ⟨by simp, by simpa [hfirst] using hmore⟩ hafter _

theorem number_longest (hfirst : first.isDigit = true)
    (h : number first (more ++ after) = ⟨.ok value, more.length⟩) :
    Longest value (first :: more) after := by
  unfold number at h
  dsimp only at h
  split at h
  · -- behind a point, the digits of the fraction are a run of their own
    next tail hpoint =>
    simp only [Lexeme.mk.injEq, Except.ok.injEq] at h
    obtain ⟨rfl, hlen⟩ := h
    generalize hw : (more ++ after).takeWhile Char.isDigit = whole at hpoint hlen
    have hwhole : ∀ c ∈ whole, c.isDigit = true := hw ▸ List.all_eq_true.1 List.all_takeWhile
    have hrest := List.prefix_iff_eq_append.1 (hw ▸ List.takeWhile_prefix Char.isDigit)
    rw [hpoint] at hrest
    have hsplit : whole ++ '.' :: tail.takeWhile Char.isDigit ++ tail.dropWhile Char.isDigit =
        more ++ after := by
      rw [← hrest]
      simp
    obtain ⟨rfl, rfl⟩ := List.append_inj hsplit (by simp; omega)
    have hfraction : ∀ c ∈ tail.takeWhile Char.isDigit, c.isDigit = true :=
      List.all_eq_true.1 List.all_takeWhile
    refine ⟨⟨first, whole, hfirst, hwhole, .inr ⟨_, hfraction, rfl, rfl⟩⟩, fun c hc w hlonger => ?_⟩
    rcases hlonger.last with hdigit | ⟨-, hpoints⟩
    · rw [not_of_head?_dropWhile hc] at hdigit
      cases hdigit
    · exact hpoints (by simp)
  · -- without a point the number is one run, and what stops it is neither a digit nor a point
    next hpoint =>
    simp only [Lexeme.mk.injEq, Except.ok.injEq] at h
    obtain ⟨rfl, hlen⟩ := h
    obtain ⟨hwhole, hafter⟩ := run_of_length hlen
    have hmore : (more ++ after).takeWhile Char.isDigit = more :=
      takeWhile_of_run hwhole hafter
    rw [hmore] at hpoint ⊢
    rw [List.drop_left] at hpoint
    refine ⟨⟨first, more, hfirst, hwhole, .inl ⟨rfl, rfl⟩⟩, fun c hc w hlonger => ?_⟩
    rcases hlonger.last with hdigit | ⟨rfl, -⟩
    · rw [hafter c hc] at hdigit
      cases hdigit
    · obtain ⟨tail, rfl⟩ := List.head?_eq_some_iff.1 hc
      exact hpoint tail rfl

theorem symbol_longest (h : symbol first (more ++ after) = ⟨.ok value, more.length⟩) :
    Longest value (first :: more) after := by
  unfold symbol at h
  split at h
  · next hinput =>
    obtain ⟨rfl, hword⟩ := hinput
    simp only [Lexeme.mk.injEq, Except.ok.injEq] at h
    obtain ⟨rfl, hlen⟩ := h
    have hrun : ((more ++ after).takeWhile isWordChar).length = more.length := by
      rw [hword, ← hlen]
      rfl
    obtain ⟨hmore, hafter⟩ := run_of_length hrun
    rw [takeWhile_of_run hmore hafter] at hword
    exact ⟨by rw [hword]; rfl, hafter⟩
  · split at h
    · next s hs =>
      simp only [Lexeme.mk.injEq, Except.ok.injEq] at h
      obtain ⟨rfl, hlen⟩ := h
      obtain ⟨first', tail, hspelling, -⟩ := s.spelling_cons
      have hlength : s.spelling.length = tail.length + 1 := by
        rw [← String.length_toList, hspelling, List.length_cons]
      have hpre := Symbol.prefix_of_longest? hs
      rw [← List.cons_append] at hpre hs
      -- both stand at the front of the text, and they are of one length
      have hsame : s.spelling.toList = first :: more :=
        (List.prefix_of_prefix_length_le hpre (List.prefix_append _ after)
          (by rw [String.length_toList, List.length_cons]; omega)).eq_of_length
          (by rw [String.length_toList, List.length_cons]; omega)
      exact ⟨hsame.symm, fun s' hs' => Symbol.length_le_of_longest? hs hs'⟩
    · cases h

/-- The text that a token is read off is as long as it can be. -/
theorem front_longest (h : front first (more ++ after) = ⟨.ok value, more.length⟩) :
    Longest value (first :: more) after := by
  unfold front at h
  split at h
  · next hfirst => exact word_longest hfirst h
  · split at h
    · next hfirst => exact number_longest hfirst h
    · split at h
      · simp only [quoted] at h
        split at h
        · obtain rfl := Except.ok.inj (Lexeme.mk.inj h).1
          trivial
        · cases h
      · split at h
        · obtain ⟨-, code, -, -, -, -, rfl, -⟩ := raw_ok_cases h
          trivial
        · exact symbol_longest h

theorem raw_more_of_error {cause : Cause} {n : Nat} (h : raw rest = ⟨.error cause, n⟩) :
    n = 0 ∨ n = rest.length := by
  unfold raw at h
  split at h
  · split at h
    · split at h
      · cases h
      · exact .inr (Lexeme.mk.inj h).2.symm
    · exact .inl (Lexeme.mk.inj h).2.symm
  · exact .inl (Lexeme.mk.inj h).2.symm

/-- A lexeme that is no token is one character, or everything up to the end. -/
theorem more_of_error {cause : Cause} {n : Nat} (h : front first rest = ⟨.error cause, n⟩) :
    n = 0 ∨ n = rest.length := by
  unfold front at h
  split at h
  · cases h
  · split at h
    · unfold number at h
      dsimp only at h
      split at h <;> cases h
    · split at h
      · unfold quoted at h
        split at h
        · cases h
        · exact .inr (Lexeme.mk.inj h).2.symm
      · split at h
        · exact raw_more_of_error h
        · unfold symbol at h
          split at h
          · cases h
          · split at h
            · cases h
            · exact .inl (Lexeme.mk.inj h).2.symm

end Lexeme

/-! ## One call -/

/-- A call at the place `c` that ends at the place `d` passes a gap and then a text, which is not
empty. A token has the span of the text. An error has the span of its first character, and the text
is no longer than that unless it reaches the end. -/
structure Tile (c : Cursor) (gap text : List Char) (outcome : Outcome) (d : Cursor) : Prop where
  rest : c.rest = gap ++ (text ++ d.rest)
  isGap : IsGap (text ++ d.rest) gap
  ne_nil : text ≠ []
  offset : d.offset = c.offset + byteLength gap + byteLength text
  token : ∀ token, outcome = .ok token →
    token.span = ⟨c.offset + byteLength gap, d.offset⟩ ∧ Longest token.value text d.rest
  error : ∀ e, outcome = .error e → ∃ first more, text = first :: more ∧
    e.span = ⟨c.offset + byteLength gap, c.offset + byteLength gap + first.utf8Size⟩ ∧
    (more = [] ∨ d.rest = [])

namespace Cursor

variable {c d : Cursor}

theorem exists_tile_of_ok {token : Located Token} (h : c.next? = some (.ok token, d)) :
    ∃ gap text, Tile c gap text (.ok token) d := by
  obtain ⟨gap, first, more, hpiece⟩ := next?_eq_ok_iff.1 h
  refine ⟨gap, first :: more, hpiece.rest, isGap_of_triviaLength ?_, List.cons_ne_nil _ _, ?_, ?_,
    by simp⟩
  · rw [← hpiece.trivia, hpiece.rest]
    rfl
  · rw [hpiece.offset, hpiece.stop, hpiece.start]
  · rintro _ ⟨⟩
    refine ⟨?_, Lexeme.front_longest hpiece.front⟩
    rw [hpiece.offset, ← hpiece.start]

theorem exists_tile_of_error {e : Error} (h : c.next? = some (.error e, d)) :
    ∃ gap text, Tile c gap text (.error e) d := by
  simp only [next?] at h
  split at h
  · cases h
  · next first rest hrest =>
    simp only [Option.some.injEq, Prod.mk.injEq] at h
    obtain ⟨houtcome, hd⟩ := h
    have hdrop : c.rest.drop (triviaLength false c.rest) = first :: rest := hrest
    generalize htake : c.rest.take (triviaLength false c.rest) = gap
    have hsplit : gap ++ first :: rest = c.rest := by
      rw [← htake, ← hdrop, List.take_append_drop]
    have hgap : triviaLength false (gap ++ first :: rest) = gap.length := by
      rw [hsplit, ← htake, List.length_take_of_le (triviaLength_le ..)]
    have hstart : c.skipTrivia = ⟨c.offset + byteLength gap, first :: rest⟩ := by
      rw [skipTrivia, drop, htake, hdrop]
    cases hfront : Lexeme.front first rest with
    | mk reading n =>
      rw [hfront] at houtcome hd
      cases reading with
      | ok value => cases houtcome
      | error cause =>
        cases houtcome
        rw [hstart] at hd ⊢
        subst hd
        refine ⟨gap, first :: rest.take n, ?_, isGap_of_triviaLength ?_, List.cons_ne_nil _ _, rfl,
          by simp, ?_⟩
        · simp [← hsplit]
        · simpa using hgap
        · rintro _ ⟨⟩
          refine ⟨first, rest.take n, rfl, rfl, ?_⟩
          rcases Lexeme.more_of_error hfront with rfl | rfl
          · exact .inl rfl
          · exact .inr (by simp)

/-- Every call that does not give the end of the file passes a gap and a text. -/
theorem exists_tile {outcome : Outcome} (h : c.next? = some (outcome, d)) :
    ∃ gap text, Tile c gap text outcome d := by
  cases outcome with
  | ok token => exact exists_tile_of_ok h
  | error e => exact exists_tile_of_error h

end Cursor

namespace Tile

variable {c d : Cursor} {gap text : List Char} {outcome : Outcome}

theorem offset_le (h : Tile c gap text outcome d) : c.offset ≤ d.offset := by
  have := h.offset
  omega

/-- The characters in front of the place where a call ends. -/
theorem append_rest (h : Tile c gap text outcome d) {source : String} {before : List Char}
    (hsource : source.toList = before ++ c.rest) (hoffset : c.offset = byteLength before) :
    source.toList = (before ++ gap ++ text) ++ d.rest ∧
      d.offset = byteLength (before ++ gap ++ text) := by
  refine ⟨by simp [hsource, h.rest], ?_⟩
  rw [h.offset, hoffset, byteLength_append, byteLength_append]

/-- A token is not empty, and it begins and ends between characters. -/
theorem span_bounds {t : Located Token} (h : Tile c gap text (.ok t) d) {source : String}
    {before : List Char} (hsource : source.toList = before ++ c.rest)
    (hoffset : c.offset = byteLength before) :
    t.span.start < t.span.stop ∧ IsBoundary source t.span.start ∧
      IsBoundary source t.span.stop := by
  have hpos := List.length_pos_iff.2 h.ne_nil
  have hbytes := length_le_byteLength text
  have hstop := h.offset
  rw [(h.token t rfl).1]
  refine ⟨by simp only; omega, ⟨before ++ gap, text ++ d.rest, ?_, ?_⟩,
    ⟨_, _, h.append_rest hsource hoffset⟩⟩
  · rw [hsource, h.rest, List.append_assoc]
  · rw [hoffset, byteLength_append]

/-- The text that a token is read off stands in the source where its span says. -/
theorem text? {t : Located Token} (h : Tile c gap text (.ok t) d) {source : String}
    {before : List Char} (hsource : source.toList = before ++ c.rest)
    (hoffset : c.offset = byteLength before) :
    t.span.text? source = some (String.ofList text) := by
  have hsplit : source.toList = (before ++ gap) ++ (text ++ d.rest) := by
    rw [hsource, h.rest, List.append_assoc]
  rw [(h.token t rfl).1]
  refine Span.text?_of_append hsplit ?_ h.offset
  rw [hoffset, byteLength_append]

end Tile

/-- Every token of a text, whether or not there are bad lexemes besides, is read off a stretch of it
that is as long as it can be. -/
theorem Cursor.exists_text_of_mem {source : String} {n : Nat} {c : Cursor} {token : Located Token}
    (h : .ok token ∈ Cursor.outcomes n c) {before : List Char}
    (hsource : source.toList = before ++ c.rest) (hoffset : c.offset = byteLength before) :
    ∃ text after, token.span.text? source = some text ∧
      Longest token.value text.toList after := by
  induction n generalizing c before with
  | zero => cases h
  | succ n ih =>
    simp only [Cursor.outcomes] at h
    split at h
    · cases h
    · next outcome d hnext =>
      obtain ⟨gap, text, htile⟩ := exists_tile hnext
      rcases List.mem_cons.1 h with rfl | h
      · refine ⟨String.ofList text, d.rest, htile.text? hsource hoffset, ?_⟩
        rw [String.toList_ofList]
        exact (htile.token token rfl).2
      · obtain ⟨hsource', hoffset'⟩ := htile.append_rest hsource hoffset
        exact ih h hsource' hoffset'

/-- A number among the tokens of a text is written there. -/
theorem Stream.exists_literal_of_mem {source : String} {v : Number} {span : Span}
    (h : .ok ⟨.number v, span⟩ ∈ (Stream.ofText source).items) :
    ∃ literal, span.text? source = some literal ∧ v.WrittenAs literal.toList := by
  obtain ⟨literal, after, htext, hlongest⟩ :=
    @Cursor.exists_text_of_mem source _ _ _ h [] rfl rfl
  exact ⟨literal, htext, hlongest.1⟩

/-! ## Call after call -/

/-- Where reading a source stands behind `k` calls. -/
def place (source : String) : Nat → Cursor
  | 0 => .ofText source
  | k + 1 => (place source k).next.2

/-- What the call behind `k` others gives. -/
def reading (source : String) (k : Nat) : Outcome :=
  (place source k).next.1

section Calls

variable {source : String} {k n : Nat}

theorem next?_place {next : Outcome × Cursor} (h : (place source k).next? = some next) :
    (place source k).next? = some (reading source k, place source (k + 1)) := by
  rw [reading, place, Cursor.next, h]
  rfl

theorem place_succ_of_none (h : (place source k).next? = none) :
    place source (k + 1) = place source k := by
  rw [place, Cursor.next_of_next?_eq_none h]

/-- Behind every number of calls, reading stands between two characters of the source. -/
theorem exists_before_place (source : String) (k : Nat) : ∃ before,
    source.toList = before ++ (place source k).rest ∧
      (place source k).offset = byteLength before := by
  induction k with
  | zero => exact ⟨[], rfl, rfl⟩
  | succ k ih =>
    obtain ⟨before, hsource, hoffset⟩ := ih
    cases hnext : (place source k).next? with
    | none =>
      rw [place_succ_of_none hnext]
      exact ⟨before, hsource, hoffset⟩
    | some next =>
      obtain ⟨gap, text, htile⟩ := Cursor.exists_tile (next?_place hnext)
      exact ⟨_, htile.append_rest hsource hoffset⟩

theorem offset_place_le {j : Nat} (hjk : j ≤ k) :
    (place source j).offset ≤ (place source k).offset := by
  induction hjk with
  | refl => exact Nat.le_refl _
  | @step k _ ih =>
    refine Nat.le_trans ih ?_
    cases hnext : (place source k).next? with
    | none => exact Nat.le_of_eq (congrArg Cursor.offset (place_succ_of_none hnext).symm)
    | some next =>
      obtain ⟨gap, text, htile⟩ := Cursor.exists_tile (next?_place hnext)
      exact htile.offset_le

/-- Every call passes a character, so the end is reached before the characters are used up. -/
theorem exists_last_call (m : Nat) {j : Nat} (hm : (place source j).rest.length ≤ m)
    (hj : ∀ k < j, (place source k).next? ≠ none) :
    ∃ n ≤ j + m, (∀ k < n, (place source k).next? ≠ none) ∧ (place source n).next? = none := by
  induction m generalizing j with
  | zero =>
    have hrest := List.eq_nil_of_length_eq_zero (Nat.le_zero.1 hm)
    exact ⟨j, Nat.le_refl _, hj, Cursor.next?_of_rest_eq_nil hrest⟩
  | succ m ih =>
    cases hnext : (place source j).next? with
    | none => exact ⟨j, Nat.le_add_right _ _, hj, hnext⟩
    | some next =>
      -- the next call has fewer characters in front of it, so fewer calls are left
      have hlt := Cursor.length_rest_lt_of_next? (next?_place hnext)
      have hj' : ∀ k < j + 1, (place source k).next? ≠ none := by
        intro k hk
        rcases Nat.lt_succ_iff_lt_or_eq.1 hk with hk | rfl
        · exact hj k hk
        · simp [hnext]
      obtain ⟨n, hn, hlast⟩ := ih (j := j + 1) (by omega) hj'
      exact ⟨n, by omega, hlast⟩

/-- Once a call gives the end of the file, reading stays where it is and every further call gives it
again. -/
theorem reading_of_last (hn : (place source n).next? = none) (hk : n ≤ k) :
    reading source k = .ok (Cursor.endOfFile (byteLength source.toList)) := by
  have hplace : place source k = place source n := by
    induction hk with
    | refl => rfl
    | step _ ih => rw [place_succ_of_none (ih ▸ hn), ih]
  obtain ⟨before, hsource, hoffset⟩ := exists_before_place source n
  rw [reading, hplace, Cursor.next_of_next?_eq_none hn, hoffset, hsource, byteLength_append]

/-- Behind the last lexeme only a gap is left. -/
theorem isGap_of_last (hn : (place source n).next? = none) : IsGap [] (place source n).rest := by
  refine isGap_of_triviaLength ?_
  rw [List.append_nil]
  exact Cursor.triviaLength_of_next?_eq_none hn

end Calls

/-- Reading a source by one call after the other, over bad lexemes, gives the end of the file after
at most as many calls as the source has bytes, and from then on for ever, at the end of the source.
Behind the last call before it stands a gap. Each call before it passes a gap and a text; tokens are
not empty, begin and end between characters, and stand one behind the other. -/
theorem readings_tile (source : String) : ∃ n ≤ byteLength source.toList,
    (∀ k, n ≤ k → reading source k = .ok (Cursor.endOfFile (byteLength source.toList))) ∧
    IsGap [] (place source n).rest ∧
    (∀ k, ∃ before, source.toList = before ++ (place source k).rest ∧
      (place source k).offset = byteLength before) ∧
    (∀ k < n, ∃ gap text,
      Tile (place source k) gap text (reading source k) (place source (k + 1))) ∧
    (∀ k < n, ∀ t, reading source k = .ok t → t.span.start < t.span.stop ∧
      IsBoundary source t.span.start ∧ IsBoundary source t.span.stop) ∧
    ∀ j k, j < k → k < n → ∀ t u, reading source j = .ok t → reading source k = .ok u →
      t.span.stop ≤ u.span.start := by
  have hstart : (place source 0).rest.length ≤ source.toList.length := Nat.le_refl _
  obtain ⟨n, hn, hbefore, hlast⟩ := exists_last_call _ hstart (by simp)
  have hbytes := length_le_byteLength source.toList
  have htile : ∀ k < n, ∃ gap text,
      Tile (place source k) gap text (reading source k) (place source (k + 1)) := by
    intro k hk
    obtain ⟨next, hnext⟩ := Option.ne_none_iff_exists'.1 (hbefore k hk)
    exact Cursor.exists_tile (next?_place hnext)
  refine ⟨n, by omega, fun k hk => reading_of_last hlast hk, isGap_of_last hlast,
    exists_before_place source, htile, fun k hk t ht => ?_, fun j k hjk hk t u ht hu => ?_⟩
  · obtain ⟨gap, text, htile⟩ := htile k hk
    obtain ⟨before, hsource, hoffset⟩ := exists_before_place source k
    rw [ht] at htile
    exact htile.span_bounds hsource hoffset
  · obtain ⟨gap, text, htilej⟩ := htile j (by omega)
    obtain ⟨gap', text', htilek⟩ := htile k hk
    have hle : (place source (j + 1)).offset ≤ (place source k).offset := offset_place_le hjk
    rw [(htilej.token t ht).1, (htilek.token u hu).1]
    exact Nat.le_trans hle (Nat.le_add_right _ _)

/-! ## Stretches by themselves -/

theorem Outcome.move_sub_move_add (k : Nat) (outcome : Outcome) :
    (outcome.move (· + k)).move (· - k) = outcome := by
  cases outcome <;> simp [Outcome.move, Located.move, Error.move, Span.move]

theorem extent_drop_take {ts : List (Located Token)} {i j : Nat} (hij : i ≤ j)
    (hj : j < ts.length) :
    extent ((ts.drop i).take (j + 1 - i)) = ⟨ts[i].span.start, ts[j].span.stop⟩ := by
  have hhead : ((ts.drop i).take (j + 1 - i)).head? = some ts[i] := by
    rw [List.head?_take, if_neg (by omega), List.head?_drop, List.getElem?_eq_getElem]
  have hlast : ((ts.drop i).take (j + 1 - i)).getLast? = some ts[j] := by
    rw [List.getLast?_take, if_neg (by omega), List.getElem?_drop,
      show i + (j + 1 - i - 1) = j by omega, List.getElem?_eq_getElem hj]
    rfl
  rw [extent, hhead, hlast]
  rfl

/-- If a source is read as tokens without an error, its text from the start of one token to the end
of the same or a later one is read as the tokens from the one to the other, moved back to the start
of the text, and then the end of the file. -/
theorem lexing_slice {source : String} {ts : List (Located Token)}
    (h : lexing source = ts.map .ok ++ [.ok (Cursor.endOfFile (byteLength source.toList))])
    {i j : Nat} (hij : i ≤ j) (hj : j < ts.length) :
    (∀ t ∈ (ts.drop i).take (j + 1 - i), ts[i].span.start ≤ t.span.start) ∧
    ∃ text, Span.text? ⟨ts[i].span.start, ts[j].span.stop⟩ source = some text ∧
      lexing text =
        ((ts.drop i).take (j + 1 - i)).map (fun t => .ok (t.move (· - ts[i].span.start))) ++
          [.ok (Cursor.endOfFile (byteLength text.toList))] := by
  rw [lexing_eq] at h
  have hitems : (Stream.ofText source).items = ts.map Except.ok := (List.append_inj' h rfl).1
  have hextent := extent_drop_take hij hj
  have hne : (ts.drop i).take (j + 1 - i) ≠ [] := by
    rw [Ne, List.take_eq_nil_iff, List.drop_eq_nil_iff]
    omega
  have hsplit : ts = ts.take i ++ (ts.drop i).take (j + 1 - i) ++ ts.drop (j + 1) := by
    rw [List.append_assoc, show j + 1 = i + (j + 1 - i) by omega, ← List.drop_drop,
      Nat.add_sub_cancel_left, List.take_append_drop, List.take_append_drop]
  generalize (ts.drop i).take (j + 1 - i) = vs at hsplit hextent hne ⊢
  -- the stretch is in order, so no span of it is moved to before zero
  have hordered : Ordered vs := (ordered_of_items hitems).of_stretch ⟨_, _, hsplit.symm⟩
  rw [hsplit] at hitems
  obtain ⟨text, htext, hmoved⟩ := Stream.items_slice hitems hne
  rw [hextent] at htext hmoved
  refine ⟨fun t ht => ?_, text, htext, ?_⟩
  · have hle := hordered.extent_start_le ht
    rwa [hextent] at hle
  · rw [lexing_eq]
    have hback := congrArg (List.map (Outcome.move (· - ts[i].span.start))) hmoved
    simp only [List.map_map, Function.comp_def, Outcome.move_sub_move_add, List.map_id'] at hback
    rw [hback]
    rfl

/-- A stretch from a string literal to an operator that is cut off right behind it. -/
theorem lexing_slice_operator : ∃ (source : String) (ts : List (Located Token)),
    source = "f 'é' :inputs=== 1." ∧ ts.length = 6 ∧
    lexing source = ts.map .ok ++ [.ok (Cursor.endOfFile (byteLength source.toList))] ∧
    ∃ text, Span.text? ⟨2, 17⟩ source = some text ∧
      lexing text = [
        .ok ⟨.text "é" .single, ⟨0, 4⟩⟩, .ok ⟨.symbol .colon, ⟨5, 6⟩⟩, .ok ⟨.name "inputs", ⟨6, 12⟩⟩,
        .ok ⟨.symbol .strictEqual, ⟨12, 15⟩⟩, .ok (Cursor.endOfFile (byteLength text.toList))] := by
  let ts : List (Located Token) := [
    ⟨.name "f", ⟨0, 1⟩⟩, ⟨.text "é" .single, ⟨2, 6⟩⟩, ⟨.symbol .colon, ⟨7, 8⟩⟩,
    ⟨.name "inputs", ⟨8, 14⟩⟩, ⟨.symbol .strictEqual, ⟨14, 17⟩⟩, ⟨.number .one, ⟨18, 20⟩⟩]
  have hlexing : lexing "f 'é' :inputs=== 1." =
      ts.map .ok ++ [.ok (Cursor.endOfFile (byteLength "f 'é' :inputs=== 1.".toList))] := rfl
  obtain ⟨-, text, htext, hread⟩ := lexing_slice hlexing (i := 1) (j := 4) (by decide) (by decide)
  exact ⟨_, ts, rfl, rfl, hlexing, text, htext, hread⟩

end Resin
