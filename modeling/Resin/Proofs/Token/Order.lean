import Resin.Proofs.Token.Stretches

/-!
# Where tokens stand

The tokens of a source stand in it one behind the other. Each has a text of its own, which begins
and ends between characters and is not empty.

* `Lexes.exists_lexeme`, `exists_lexeme_of_items`: the text that a token is read off;
* `Ordered`: tokens that are not empty and do not overlap. For such tokens the extent of a stretch
  lies around every token of it, and stretches that follow each other have extents that do.
-/

namespace Resin

open Text

/-! ## Boundaries -/

/-- An offset between two characters of a source, or at one of its ends. -/
def IsBoundary (source : String) (offset : Nat) : Prop :=
  ∃ before after, source.toList = before ++ after ∧ offset = byteLength before

theorem IsBoundary.le {source : String} {offset : Nat} (h : IsBoundary source offset) :
    offset ≤ byteLength source.toList := by
  obtain ⟨before, after, hsource, rfl⟩ := h
  rw [hsource, byteLength_append]
  exact Nat.le_add_right ..

/-! ## The text of a token -/

/-- In a source, the characters from `first` on, with `before` in front of them and `after` behind
them, are what a token is read off. -/
structure ReadOff (source : String) (token : Located Token) (before : List Char) (first : Char)
    (more after : List Char) : Prop where
  source_eq : source.toList = before ++ (first :: more ++ after)
  front : Lexeme.front first (more ++ after) = ⟨.ok token.value, more.length⟩
  start : token.span.start = byteLength before
  stop : token.span.stop = token.span.start + byteLength (first :: more)

namespace ReadOff

variable {source : String} {token : Located Token} {before more after : List Char} {first : Char}

theorem text? (h : ReadOff source token before first more after) :
    token.span.text? source = some (String.ofList (first :: more)) :=
  Span.text?_of_append h.source_eq h.start h.stop

theorem start_lt_stop (h : ReadOff source token before first more after) :
    token.span.start < token.span.stop := by
  have hsize := first.utf8Size_pos
  rw [h.stop, byteLength_cons]
  omega

theorem isBoundary (h : ReadOff source token before first more after) :
    IsBoundary source token.span.start ∧ IsBoundary source token.span.stop := by
  refine ⟨⟨before, _, h.source_eq, h.start⟩, before ++ first :: more, after, ?_, ?_⟩
  · rw [h.source_eq, List.append_assoc]
  · rw [h.stop, h.start, byteLength_append]

end ReadOff

/-- Reading goes on in the same text: what is read behind a place is read off the text there. -/
theorem Lexes.exists_lexeme {source : String} {c d : Cursor} {ts : List (Located Token)}
    (h : Lexes c ts d) {p : List Char} (hsource : source.toList = p ++ c.rest)
    (hoffset : c.offset = byteLength p) :
    ∀ token ∈ ts, ∃ before first more after, ReadOff source token before first more after := by
  induction h generalizing p with
  | nil => simp
  | @cons c u d token ts hnext _ ih =>
    obtain ⟨gap, first, more, hpiece⟩ := Cursor.next?_eq_ok_iff.1 hnext
    have hfirst : ReadOff source token (p ++ gap) first more u.rest := by
      refine ⟨?_, hpiece.front, ?_, hpiece.stop⟩
      · rw [hsource, hpiece.rest]
        simp
      · rw [hpiece.start, hoffset, byteLength_append]
    intro t ht
    rcases List.mem_cons.1 ht with rfl | ht
    · exact ⟨_, _, _, _, hfirst⟩
    · refine ih (p := p ++ gap ++ first :: more) ?_ ?_ t ht
      · rw [hfirst.source_eq]
        simp
      · rw [hpiece.offset, hfirst.stop, hfirst.start, ← byteLength_append]

/-! ## Tokens in order -/

/-- The tokens are not empty, and each ends no later than the next ones begin. -/
structure Ordered (ts : List (Located Token)) : Prop where
  start_lt_stop : ∀ t ∈ ts, t.span.start < t.span.stop
  apart : ts.Pairwise fun t u => t.span.stop ≤ u.span.start

theorem Lexes.le_start {c d : Cursor} {ts : List (Located Token)} (h : Lexes c ts d) :
    ∀ token ∈ ts, c.offset ≤ token.span.start := by
  induction h with
  | nil => simp
  | @cons c u d token ts hnext _ ih =>
    obtain ⟨gap, first, more, hpiece⟩ := Cursor.next?_eq_ok_iff.1 hnext
    have hstart := hpiece.start
    have hstop := hpiece.stop
    have hoffset := hpiece.offset
    intro t ht
    rcases List.mem_cons.1 ht with rfl | ht
    · omega
    · have hle := ih t ht
      omega

theorem Lexes.apart {c d : Cursor} {ts : List (Located Token)} (h : Lexes c ts d) :
    ts.Pairwise fun t u => t.span.stop ≤ u.span.start := by
  induction h with
  | nil => exact .nil
  | cons hnext hrest ih =>
    obtain ⟨gap, first, more, hpiece⟩ := Cursor.next?_eq_ok_iff.1 hnext
    refine .cons (fun t ht => ?_) ih
    rw [← hpiece.offset]
    exact hrest.le_start t ht

/-- Every token of a source without errors is read off a text in it. -/
theorem exists_lexeme_of_items {source : String} {ts : List (Located Token)}
    (h : (Stream.ofText source).items = ts.map Except.ok) :
    ∀ token ∈ ts, ∃ before first more after, ReadOff source token before first more after := by
  obtain ⟨d, hlexes, -⟩ :=
    Cursor.lexes_of_outcomes (c := ⟨0, source.toList⟩) (Nat.le_refl _) h
  exact hlexes.exists_lexeme (p := []) rfl rfl

/-- The tokens of a source without errors stand one behind the other. -/
theorem ordered_of_items {source : String} {ts : List (Located Token)}
    (h : (Stream.ofText source).items = ts.map Except.ok) : Ordered ts := by
  obtain ⟨d, hlexes, -⟩ :=
    Cursor.lexes_of_outcomes (c := ⟨0, source.toList⟩) (Nat.le_refl _) h
  refine ⟨fun t ht => ?_, hlexes.apart⟩
  obtain ⟨_, _, _, _, hread⟩ := exists_lexeme_of_items h t ht
  exact hread.start_lt_stop

/-! ## Extents of stretches -/

theorem exists_extent_start {ts : List (Located Token)} (hne : ts ≠ []) :
    ∃ t ∈ ts, (extent ts).start = t.span.start := by
  obtain ⟨t, rest, rfl⟩ := List.exists_cons_of_ne_nil hne
  exact ⟨t, List.mem_cons_self .., rfl⟩

theorem exists_extent_stop {ts : List (Located Token)} (hne : ts ≠ []) :
    ∃ t ∈ ts, (extent ts).stop = t.span.stop := by
  obtain ⟨init, t, rfl⟩ := (List.eq_nil_or_concat ts).resolve_left hne
  rw [List.concat_eq_append]
  exact ⟨t, by simp, extent_concat_stop init t⟩

namespace Ordered

variable {ts us : List (Located Token)}

theorem of_stretch (h : Ordered ts) (hus : us <:+: ts) : Ordered us :=
  ⟨fun t ht => h.start_lt_stop t (hus.subset ht), h.apart.sublist hus.sublist⟩

/-- The extent of a stretch begins before each of its tokens. -/
theorem extent_start_le (h : Ordered ts) {t : Located Token} (ht : t ∈ ts) :
    (extent ts).start ≤ t.span.start := by
  obtain ⟨first, rest, rfl⟩ := List.exists_cons_of_ne_nil (List.ne_nil_of_mem ht)
  show first.span.start ≤ t.span.start
  rcases List.mem_cons.1 ht with rfl | ht
  · exact Nat.le_refl _
  · have hlt := h.start_lt_stop first (List.mem_cons_self ..)
    have hle := (List.pairwise_cons.1 h.apart).1 t ht
    omega

/-- The extent of a stretch ends behind each of its tokens. -/
theorem le_extent_stop (h : Ordered ts) {t : Located Token} (ht : t ∈ ts) :
    t.span.stop ≤ (extent ts).stop := by
  obtain ⟨init, last, rfl⟩ := (List.eq_nil_or_concat ts).resolve_left (List.ne_nil_of_mem ht)
  rw [List.concat_eq_append] at h ht ⊢
  rw [extent_concat_stop]
  rcases List.mem_append.1 ht with ht | ht
  · have hlt := h.start_lt_stop last (by simp)
    have hle := (List.pairwise_append.1 h.apart).2.2 t ht last (List.mem_singleton_self last)
    omega
  · obtain rfl := List.mem_singleton.1 ht
    exact Nat.le_refl _

theorem extent_start_lt_stop (h : Ordered ts) (hne : ts ≠ []) :
    (extent ts).start < (extent ts).stop := by
  obtain ⟨t, ht, hstart⟩ := exists_extent_start hne
  have hlt := h.start_lt_stop t ht
  have hle := h.le_extent_stop ht
  omega

end Ordered

end Resin
