import Resin.Compile
import Resin.Proofs.Grammar.Contents
import Resin.Proofs.Script.Faults
import Resin.Proofs.Script.RegionPlaces

/-!
# Regions in their source

The regions of a text literal are compiled with offsets that are counted from the start of the
literal's span. A literal of its own has its span to itself, and there the offset of a region is the
place of the region in the source. A literal in brackets has the span of the brackets, and there the
offset falls short of the place, for every region of the literal by the same number of bytes
(`compile_regions`). Errors inside a region are moved by the offset.
-/

namespace Resin

open Text Grammar

variable {source content : String}

/-! ## Literals in a source -/

/-- A text literal with its quotes stands in a source from `start` on. -/
def LiteralAt (source content : String) (start : Nat) : Prop :=
  ∃ (quote : Quote) (before after : List Char),
    source.toList = before ++ (quote.char :: (content.toList ++ [quote.char]) ++ after) ∧
    start = byteLength before

theorem Quote.utf8Size_char (quote : Quote) : quote.char.utf8Size = 1 := by
  cases quote <;> rfl

/-- A stretch of the content of a literal stands in the source behind the opening quote. -/
theorem LiteralAt.text? {start offset : Nat} (h : LiteralAt source content start)
    {before w after : List Char} (hcontent : content.toList = before ++ (w ++ after))
    (hoffset : offset = start + 1 + byteLength before) :
    (Span.mk offset (offset + byteLength w)).text? source = some (String.ofList w) := by
  obtain ⟨quote, front, behind, hsource, rfl⟩ := h
  have hw : source.toList =
      (front ++ quote.char :: before) ++ (w ++ (after ++ quote.char :: behind)) := by
    rw [hsource, hcontent]
    simp
  refine Span.text?_of_append hw ?_ rfl
  show offset = byteLength (front ++ quote.char :: before)
  rw [byteLength_append, byteLength_cons, quote.utf8Size_char, hoffset]
  omega

/-- The token of a text literal is read off the literal. -/
theorem literalAt_of_mem {ts : List (Located Token)} {quote : Quote} {place : Span}
    (h : (Stream.ofText source).items = ts.map Except.ok)
    (htoken : ⟨.text content quote, place⟩ ∈ ts) : LiteralAt source content place.start ∧
      place.stop = place.start + byteLength content.toList + 2 := by
  obtain ⟨before, first, more, after, hread⟩ := exists_lexeme_of_items h _ htoken
  have hcarries := hread.carries (w := content) rfl
  cases hcarries with
  | text _ _ hfirst hmore =>
    subst hfirst hmore
    refine ⟨⟨quote, before, after, hread.source_eq, hread.start⟩, ?_⟩
    have hstop : place.stop = place.start + _ := hread.stop
    rw [byteLength_cons, byteLength_append, byteLength_cons, quote.utf8Size_char,
      byteLength_nil] at hstop
    omega

/-! ## Literals of a tree -/

/-- A literal of a tree stands in the source `d` bytes behind the start of its span. The span is the
literal's own, or it has something on both sides of the literal. -/
structure Stands (source content : String) (span : Span) (d : Nat) : Prop where
  literal : LiteralAt source content (span.start + d)
  span : d = 0 ∧ span.stop = span.start + byteLength content.toList + 2 ∨
    0 < d ∧ span.start + d + byteLength content.toList + 2 < span.stop

namespace Stands

variable {span : Span} {d : Nat}

/-- A region of the literal stands `d` bytes behind its offset. -/
theorem region (h : Stands source content span d) {segments : List Segment}
    (hsplit : Segment.split content (span.start + 1) = .ok segments) {r : String} {o : Nat}
    (hregion : .region r o ∈ segments) :
    (Span.mk (o + d) (o + d + byteLength r.toList)).text? source = some r := by
  obtain ⟨before, after, hcontent, rfl⟩ := Segment.placed_of_mem_split hsplit _ hregion
  have hplace : span.start + 1 + byteLength before + d =
      span.start + d + 1 + byteLength before := by omega
  have htext := h.literal.text? hcontent hplace
  rwa [String.ofList_toList] at htext

/-- An open bracket of the literal stands `d` bytes behind the place that is reported. -/
theorem unmatched (h : Stands source content span d) {e : Error}
    (hsplit : Segment.split content (span.start + 1) = .error e) :
    ∃ at_, e = ⟨.unmatchedBracket, ⟨at_, at_ + 1⟩, none⟩ ∧
      (Span.mk (at_ + d) (at_ + d + 1)).text? source = some "[" := by
  obtain ⟨before, after, hcontent, rfl⟩ := Segment.exists_bracket_of_split hsplit
  refine ⟨_, rfl, ?_⟩
  exact h.literal.text? (w := ['[']) hcontent (by omega)

end Stands

namespace Grammar

variable {ts us : List (Located Token)} {quote : Quote} {span : Span}

/-- A text literal of an expression stands in the source. -/
theorem Derives.stands (h : (Stream.ofText source).items = ts.map Except.ok) (hus : us <:+: ts)
    (he : Derives us (.text content quote span)) : ∃ d, Stands source content span d := by
  obtain ⟨o, he⟩ := he
  rcases he.isTextLiteral rfl with rfl | ⟨first, inner, last, a, rfl, ha⟩
  · obtain ⟨hliteral, hstop⟩ := literalAt_of_mem h (hus.subset (List.mem_singleton_self _))
    exact ⟨0, hliteral, .inl ⟨rfl, hstop⟩⟩
  · -- the brackets are tokens in front of the literal and behind it
    have hmem : ⟨.text content quote, a⟩ ∈ ts := hus.subset (by simp [ha])
    obtain ⟨hliteral, hstop⟩ := literalAt_of_mem h hmem
    have hordered := (ordered_of_items h).of_stretch hus
    have hspan : span = extent (first :: inner ++ [last]) := he.span_eq.2
    have hfirst : span.start = first.span.start := by rw [hspan]; rfl
    have hlast : span.stop = last.span.stop := by rw [hspan, extent_concat_stop]
    have hfront := hordered.start_lt_stop first (by simp)
    have hback := hordered.start_lt_stop last (by simp)
    have hbefore : first.span.stop ≤ a.start :=
      (List.pairwise_cons.1 hordered.apart).1 ⟨.text content quote, a⟩ (by simp [ha])
    have hbehind : a.stop ≤ last.span.start :=
      (List.pairwise_append.1 hordered.apart).2.2 ⟨.text content quote, a⟩ (by simp [ha]) last
        (List.mem_singleton_self last)
    refine ⟨a.start - span.start, ?_, .inr ⟨by omega, by omega⟩⟩
    rwa [Nat.add_sub_cancel' (by omega)]

end Grammar

theorem Expr.eq_text_of_interpolated? {e : Expr} {span : Span}
    (h : e.interpolated? = some (content, span)) : ∃ quote, e = .text content quote span := by
  unfold interpolated? at h
  split at h
  · split at h
    · cases h
      exact ⟨_, rfl⟩
    · cases h
  · cases h

theorem Store.eq_of_interpolated? {s : Store} {span : Span}
    (h : s.interpolated? = some (content, span)) : content = s.content ∧ span = s.contentSpan := by
  unfold interpolated? at h
  split at h
  · cases h
    exact ⟨rfl, rfl⟩
  · cases h

/-- The text that a statement compiles with regions is stored or one of its expressions. -/
theorem Stmt.interpolated?_cases {stmt : Stmt} {span : Span}
    (h : stmt.interpolated? = some (content, span)) :
    (∃ s a, stmt = .store s a ∧ content = s.content ∧ span = s.contentSpan) ∨
      (∀ s a, stmt ≠ .store s a) ∧ ∃ quote, .text content quote span ∈ stmt.exprs := by
  cases stmt with
  | store s a => exact .inl ⟨s, a, rfl, Store.eq_of_interpolated? h⟩
  | display e a | error e a | panic e a =>
    obtain ⟨quote, rfl⟩ := Expr.eq_text_of_interpolated? h
    exact .inr ⟨by simp, quote, List.mem_singleton_self _⟩
  | _ => cases h

/-- The literals that a program compiles with regions stand in its source. Stored ones are never in
brackets. -/
theorem stands_of_parseProgram {p : List Stmt} (h : parseProgram source = .ok p) {stmt : Stmt}
    (hstmt : stmt ∈ Stmt.nodesList p) {span : Span}
    (htext : stmt.interpolated? = some (content, span)) :
    ∃ d, Stands source content span d ∧ ((∃ s a, stmt = .store s a) → d = 0) := by
  obtain ⟨ts, hitems, hp⟩ := statements_of_parseProgram h
  obtain ⟨us, hus, hderived⟩ := hp.of_mem_nodes stmt hstmt
  rcases Stmt.interpolated?_cases htext with ⟨s, a, rfl, rfl, rfl⟩ | ⟨hprints, quote, hx⟩
  · obtain ⟨hliteral, hstop⟩ := literalAt_of_mem hitems (hus.subset hderived.text_mem)
    exact ⟨0, ⟨hliteral, .inl ⟨rfl, hstop⟩⟩, fun _ => rfl⟩
  · have hnode : .text content quote span ∈ Expr.nodesList stmt.exprs := Expr.mem_nodesList hx
    rcases hderived.of_mem_exprs _ hnode with ⟨vs, hvs, he⟩ | ⟨_, _, _, _, _, _, -, heq⟩
    · obtain ⟨d, hstands⟩ := he.stands hitems (hvs.trans hus)
      exact ⟨d, hstands, fun ⟨s, a, heq⟩ => absurd heq (hprints s a)⟩
    · cases heq

/-- Every literal that a program compiles with regions stands in the source `d` bytes behind the
start of its span, with `d` zero if its span is its own, and so do its regions behind their offsets
and an open bracket behind the place reported for it. If the program cannot be compiled, the error
is one of its statements; inside a region it is the error of the region, moved by the offset. -/
theorem compile_regions {source : String} {p : List Stmt} (h : parseProgram source = .ok p) :
    (∀ stmt ∈ Stmt.nodesList p, ∀ content span, stmt.interpolated? = some (content, span) →
      ∃ d, Stands source content span d ∧ ((∃ s a, stmt = .store s a) → d = 0) ∧
        (∀ segments, Segment.split content (span.start + 1) = .ok segments →
          ∀ r o, .region r o ∈ segments →
            (Span.mk (o + d) (o + d + byteLength r.toList)).text? source = some r) ∧
        ∀ e, Segment.split content (span.start + 1) = .error e →
          ∃ at_, e = ⟨.unmatchedBracket, ⟨at_, at_ + 1⟩, none⟩ ∧
            (Span.mk (at_ + d) (at_ + d + 1)).text? source = some "[") ∧
    ∀ e, compile source = .error e → ∃ stmt ∈ Stmt.nodesList p, stmt.Faults e := by
  refine ⟨fun stmt hstmt content span htext => ?_, fun e he => ?_⟩
  · obtain ⟨d, hstands, hstored⟩ := stands_of_parseProgram h hstmt htext
    exact ⟨d, hstands, hstored, fun _ hsplit _ _ hregion => hstands.region hsplit hregion,
      fun _ hsplit => hstands.unmatched hsplit⟩
  · rw [compile, h] at he
    exact exists_faults_of_programScript he

/-- A literal in brackets: its region stands a byte behind the offset, and so does its error. -/
theorem compile_regions_bracketed : ∃ source p e, source = "show (\"[1 +]\");" ∧
    parseProgram source = .ok p ∧ compile source = .error e ∧
    e = ⟨.expectedExpression .endOfFile, ⟨7 + 3, 7 + 3⟩, none⟩ ∧
    Segment.split "[1 +]" 6 = .ok [.region "1 +" 7] ∧
    (Span.mk (7 + 1) (7 + 1 + 3)).text? source = some "1 +" ∧
    ∃ stmt ∈ Stmt.nodesList p, stmt.Faults e := by
  let source := "show (\"[1 +]\");"
  let stmt : Stmt := .display (.text "[1 +]" .double ⟨5, 14⟩) ⟨0, 15⟩
  have hp : (parseProgram source).toOption = some [stmt] := by decide +kernel
  have hok := eq_ok_of_toOption hp
  have hfails : compile source = .error ⟨.expectedExpression .endOfFile, ⟨10, 10⟩, none⟩ :=
    eq_error_of_failure? (by decide +kernel)
  have hsplit : Segment.split "[1 +]" 6 = .ok [.region "1 +" 7] :=
    eq_ok_of_toOption (by decide +kernel)
  obtain ⟨hplaces, herrors⟩ := compile_regions hok
  obtain ⟨d, hstands, -, hregions, -⟩ :=
    hplaces stmt (List.mem_singleton_self _) "[1 +]" ⟨5, 14⟩ (by decide +kernel)
  have hlength : byteLength "[1 +]".toList = 5 := by decide +kernel
  have hd : d = 1 := by
    have hspan := hstands.span
    simp only [hlength] at hspan
    omega
  have htext := hregions _ hsplit "1 +" 7 (List.mem_singleton_self _)
  rw [hd] at htext
  exact ⟨source, [stmt], _, rfl, hok, hfails, rfl, hsplit, htext, herrors _ hfails⟩

end Resin
