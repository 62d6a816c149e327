import Resin.Proofs.Grammar.Nesting
import Resin.Proofs.Token.Outcomes

/-!
# Where the errors of a parse stand

Every outcome of a source, token or error, has a span in it, and the spans stand one behind the
other (`inOrder_of_next?`). A parse reports an error of the source where it stands, and its own
errors at the current token, at one it has passed, or from one that it has passed to the last one.
So the errors of a parse lie in the source as well: `Keeps` says this of a parse, and is followed
through the definitions up to `keeps_program` and `keeps_standalone`.
-/

namespace Resin

open Text

/-! ## Outcomes in order -/

/-- The place of a token or an error. -/
def Outcome.span : Outcome → Span
  | .ok token => token.span
  | .error e => e.span

/-- The outcomes stand in the source from an offset on, one behind the other. -/
def InOrder (source : String) : Nat → List Outcome → Prop
  | lo, [] => lo ≤ byteLength source.toList
  | lo, outcome :: outcomes =>
    lo ≤ outcome.span.start ∧ outcome.span.LiesIn source ∧ InOrder source outcome.span.stop outcomes

theorem InOrder.mono {source : String} {lo lo' : Nat} {outcomes : List Outcome}
    (h : InOrder source lo outcomes) (hle : lo' ≤ lo) : InOrder source lo' outcomes := by
  cases outcomes with
  | nil => exact Nat.le_trans hle h
  | cons outcome outcomes => exact ⟨Nat.le_trans hle h.1, h.2⟩

theorem Span.liesIn_of_prefixes {source : String} {before text after : List Char} {span : Span}
    (hsource : source.toList = before ++ text ++ after) (hstart : span.start = byteLength before)
    (hstop : span.stop = byteLength (before ++ text)) : span.LiesIn source := by
  have hbegin : IsBoundary source span.start :=
    ⟨before, text ++ after, by rw [hsource, List.append_assoc], hstart⟩
  have hend : IsBoundary source span.stop := ⟨before ++ text, after, hsource, hstop⟩
  refine ⟨?_, hend.le, hbegin, hend⟩
  rw [hstart, hstop, byteLength_append]
  exact Nat.le_add_right ..

/-- An error stands at the first character of what it is reported for. -/
theorem Cursor.next?_eq_error {c d : Cursor} {e : Error} (h : c.next? = some (.error e, d)) :
    ∃ gap first more, c.rest = gap ++ first :: (more ++ d.rest) ∧
      triviaLength false c.rest = gap.length ∧
      (Lexeme.front first (more ++ d.rest)).reading = .error e.cause ∧
      e.span.start = c.offset + byteLength gap ∧ e.span.stop = e.span.start + first.utf8Size ∧
      e.hint = none ∧ d.offset = e.span.stop + byteLength more := by
  simp only [next?] at h
  split at h
  · cases h
  · next first rest hrest =>
    simp only [Option.some.injEq, Prod.mk.injEq] at h
    obtain ⟨houtcome, hd⟩ := h
    split at houtcome
    · cases houtcome
    · next cause hreading =>
      cases houtcome
      let k := (Lexeme.front first rest).more
      have hdrop : c.rest.drop (triviaLength false c.rest) = first :: rest := hrest
      have hbehind : rest = rest.take k ++ d.rest := by
        rw [← hd, rest_drop, hrest, List.drop_succ_cons, List.take_append_drop]
      have hgap : (c.rest.take (triviaLength false c.rest)).length = triviaLength false c.rest :=
        List.length_take_of_le (triviaLength_le ..)
      refine ⟨c.rest.take (triviaLength false c.rest), first, rest.take k, ?_, hgap.symm, ?_, rfl,
        rfl, rfl, ?_⟩
      · rw [← hbehind, ← hdrop, List.take_append_drop]
      · rw [← hbehind, hreading]
      · rw [← hd, drop, hrest, List.take_succ_cons, byteLength_cons, Nat.add_assoc]

/-- An outcome stands behind blanks and comments. It is read off the text from its span on. -/
theorem Cursor.exists_of_next? {c d : Cursor} {outcome : Outcome}
    (h : c.next? = some (outcome, d)) : ∃ gap text more, c.rest = gap ++ text ++ more ++ d.rest ∧
      outcome.span.start = c.offset + byteLength gap ∧
      outcome.span.stop = outcome.span.start + byteLength text ∧
      d.offset = outcome.span.stop + byteLength more := by
  cases outcome with
  | ok token =>
    obtain ⟨gap, first, more, hpiece⟩ := Cursor.next?_eq_ok_iff.1 h
    refine ⟨gap, first :: more, [], ?_, hpiece.start, hpiece.stop, hpiece.offset⟩
    rw [hpiece.rest]
    simp
  | error e =>
    obtain ⟨gap, first, more, hrest, -, -, hstart, hstop, -, hoffset⟩ := Cursor.next?_eq_error h
    refine ⟨gap, [first], more, ?_, hstart, hstop, hoffset⟩
    rw [hrest]
    simp

/-- The outcomes from a place of the source on stand in it one behind the other. -/
theorem inOrder_outcomes {source : String} (n : Nat) {c : Cursor} {p : List Char}
    (hsource : source.toList = p ++ c.rest) (hoffset : c.offset = byteLength p) :
    InOrder source c.offset (c.outcomes n) := by
  have hend : c.offset ≤ byteLength source.toList := by
    rw [hoffset, hsource, byteLength_append]
    exact Nat.le_add_right ..
  induction n generalizing c p with
  | zero => exact hend
  | succ n ih =>
    rw [Cursor.outcomes]
    cases hnext : c.next? with
    | none => exact hend
    | some next =>
      obtain ⟨outcome, d⟩ := next
      obtain ⟨gap, text, more, hrest, hstart, hstop, hd⟩ := Cursor.exists_of_next? hnext
      have hsplit : source.toList = p ++ gap ++ text ++ (more ++ d.rest) := by
        rw [hsource, hrest]
        simp only [List.append_assoc]
      have hbegin : outcome.span.start = byteLength (p ++ gap) := by
        rw [hstart, hoffset, byteLength_append]
      have hbehind : outcome.span.stop = byteLength (p ++ gap ++ text) := by
        rw [hstop, hbegin, ← byteLength_append]
      have hlies := Span.liesIn_of_prefixes hsplit hbegin hbehind
      have hnewOffset : d.offset = byteLength (p ++ gap ++ text ++ more) := by
        rw [hd, hbehind, ← byteLength_append]
      have hnewSource : source.toList = p ++ gap ++ text ++ more ++ d.rest := by
        rw [hsplit, List.append_assoc _ more]
      have hnewEnd : d.offset ≤ byteLength source.toList := by
        rw [hnewOffset, hnewSource, byteLength_append _ d.rest]
        exact Nat.le_add_right ..
      refine ⟨hstart ▸ Nat.le_add_right .., hlies, ?_⟩
      exact (ih hnewSource hnewOffset hnewEnd).mono (hd ▸ Nat.le_add_right ..)

theorem inOrder_ofText (source : String) : InOrder source 0 (Stream.ofText source).items :=
  inOrder_outcomes (c := .ofText source) _ (List.nil_append _).symm rfl

/-! ## States of a parse -/

/-- The tokens that a parse has passed, is at and has ahead stand in the source, one behind the
other. -/
structure ParseState.LiesIn (s : ParseState) (source : String) : Prop where
  passed : IsBoundary source s.lastStop
  lastStop_le : s.lastStop ≤ s.current.span.start
  current : s.current.span.LiesIn source
  ahead : InOrder source s.current.span.stop s.ahead.items
  stop : s.ahead.stop = byteLength source.toList

theorem isBoundary_length (source : String) : IsBoundary source (byteLength source.toList) :=
  ⟨source.toList, [], (List.append_nil _).symm, rfl⟩

/-- The next outcome of a stream stands in the source, and so do those behind it. -/
theorem Stream.liesIn_next {source : String} {stream rest : Stream} {lo : Nat} {outcome : Outcome}
    (h : InOrder source lo stream.items) (hstop : stream.stop = byteLength source.toList)
    (hnext : stream.next = (outcome, rest)) :
    lo ≤ outcome.span.start ∧ outcome.span.LiesIn source ∧
      InOrder source outcome.span.stop rest.items ∧ rest.stop = byteLength source.toList := by
  obtain ⟨items, stop⟩ := stream
  subst hstop
  cases items with
  | nil =>
    cases hnext
    have hend := isBoundary_length source
    exact ⟨h, ⟨Nat.le_refl _, Nat.le_refl _, hend, hend⟩, Nat.le_refl _, rfl⟩
  | cons first items =>
    cases hnext
    exact ⟨h.1, h.2.1, h.2.2, rfl⟩

theorem ParseState.liesIn_ofText {source : String} {s : ParseState}
    (h : ParseState.ofText source = .ok s) : s.LiesIn source := by
  unfold ofText start at h
  split at h
  · next token ahead hnext =>
    cases h
    obtain ⟨-, hcurrent, hahead, hstop⟩ := Stream.liesIn_next (inOrder_ofText source) rfl hnext
    exact ⟨⟨[], source.toList, rfl, rfl⟩, Nat.zero_le _, hcurrent, hahead, hstop⟩
  · cases h

theorem ParseState.liesIn_of_ofText_error {source : String} {e : Error}
    (h : ParseState.ofText source = .error e) : e.span.LiesIn source := by
  unfold ofText start at h
  split at h
  · cases h
  · next e' ahead hnext =>
    cases h
    exact (Stream.liesIn_next (inOrder_ofText source) rfl hnext).2.1

namespace Parse

/-- The reply leaves a state in the source that has come as far as `lo`, or an error in it. -/
inductive Ends {α : Type} (source : String) (lo : Nat) : Reply α → Prop
  | done {a : α} {t : ParseState} : t.LiesIn source → lo ≤ t.lastStop → Ends source lo (.done a t)
  | failed {e : Error} {t : ParseState} : e.span.LiesIn source → Ends source lo (.failed e t)

theorem Ends.mono {α : Type} {source : String} {lo lo' : Nat} {reply : Reply α}
    (h : Ends source lo reply) (hle : lo' ≤ lo) : Ends source lo' reply := by
  cases h with
  | done ht hlo => exact .done ht (Nat.le_trans hle hlo)
  | failed he => exact .failed he

/-- From a state in the source that has come as far as `lo`, the parse stays there. -/
def Keeps {α : Type} (source : String) (lo : Nat) (p : Parse α) : Prop :=
  ∀ s : ParseState, s.LiesIn source → lo ≤ s.lastStop → Ends source lo (p s)

variable {α β : Type} {source : String} {lo : Nat}

/-! ## Combinators -/

namespace Keeps

variable {p : Parse α}

theorem bind {f : α → Parse β} (hp : Keeps source lo p) (hf : ∀ a, Keeps source lo (f a)) :
    Keeps source lo (p >>= f) := by
  intro s hs hlo
  rw [bind_apply]
  have hfirst := hp s hs hlo
  generalize p s = reply at hfirst
  cases hfirst with
  | failed he => exact .failed he
  | done ht hle => exact hf _ _ ht hle

theorem pure {a : α} : Keeps source lo (pure a : Parse α) :=
  fun _ hs hlo => .done hs hlo

theorem fail {cause : Cause} {span : Span} (h : span.LiesIn source) :
    Keeps source lo (fail cause span : Parse α) :=
  fun _ _ _ => .failed h

theorem failHere {cause : Token → Cause} : Keeps source lo (failHere cause : Parse α) :=
  fun _ hs _ => .failed hs.current

theorem exhausted : Keeps source lo (exhausted : Parse α) :=
  failHere

theorem hinting {hint : Hint} (hp : Keeps source lo p) : Keeps source lo (hinting hint p) := by
  intro s hs hlo
  have hreply := hp s hs hlo
  unfold Parse.hinting
  generalize p s = reply at hreply
  cases hreply with
  | done ht hle => exact .done ht hle
  | failed he => exact .failed he

theorem attempt (hp : Keeps source lo p) : Keeps source lo (attempt p) := by
  intro s hs hlo
  have hreply := hp s hs hlo
  unfold Parse.attempt
  generalize p s = reply at hreply
  cases hreply with
  | done ht hle => exact .done ht hle
  | failed he => exact .done hs hlo

theorem withBudget {p : Nat → Parse α} (hp : ∀ n, Keeps source lo (p n)) :
    Keeps source lo (withBudget p) :=
  fun s => hp s.budget s

end Keeps

/-! ## Primitive parses -/

theorem keeps_peek : Keeps source lo peek :=
  fun _ hs hlo => .done hs hlo

theorem keeps_here : Keeps source lo here :=
  fun _ hs hlo => .done hs hlo

theorem keeps_lastStop : Keeps source lo lastStop :=
  fun _ hs hlo => .done hs hlo

theorem keeps_isAt {token : Token} : Keeps source lo (isAt token) :=
  fun _ hs hlo => .done hs hlo

theorem keeps_lookahead : Keeps source lo lookahead := by
  intro s hs hlo
  cases hnext : s.ahead.next with
  | mk outcome rest =>
    have hlies := (Stream.liesIn_next hs.ahead hs.stop hnext).2.1
    unfold lookahead
    rw [hnext]
    cases outcome with
    | ok token => exact .done hs hlo
    | error e => exact .failed hlies

/-- Passing the current token leads to a state in the source, unless an error comes next. -/
theorem advance_cases {s : ParseState} (hs : s.LiesIn source) :
    (∃ t, advance s = .done s.current t ∧ t.LiesIn source ∧ t.lastStop = s.current.span.stop) ∨
      ∃ e t, advance s = .failed e t ∧ e.span.LiesIn source := by
  cases hnext : s.ahead.next with
  | mk outcome rest =>
    obtain ⟨hle, hlies, hahead, hstop⟩ := Stream.liesIn_next hs.ahead hs.stop hnext
    unfold advance
    rw [hnext]
    cases outcome with
    | ok token =>
      exact .inl ⟨_, rfl, ⟨hs.current.isBoundary_stop, hle, hlies, hahead, hstop⟩, rfl⟩
    | error e => exact .inr ⟨e, _, rfl, hlies⟩

/-- Passing a token, in front of a parse that may fail at it. -/
theorem Keeps.atToken {f : Located Token → Parse β}
    (hf : ∀ token : Located Token, token.span.LiesIn source → Keeps source lo (f token)) :
    Keeps source lo (advance >>= f) := by
  intro s hs hlo
  rw [bind_apply]
  rcases advance_cases hs with ⟨t, hadvance, ht, hstop⟩ | ⟨e, t, hadvance, he⟩
  · rw [hadvance]
    refine hf s.current hs.current t ht ?_
    have hle := hs.lastStop_le
    have hspan := hs.current.start_le_stop
    omega
  · rw [hadvance]
    exact .failed he

theorem keeps_advance : Keeps source lo advance := by
  intro s hs hlo
  rcases advance_cases hs with ⟨t, hadvance, ht, hstop⟩ | ⟨e, t, hadvance, he⟩
  · rw [hadvance]
    refine .done ht ?_
    have hle := hs.lastStop_le
    have hspan := hs.current.start_le_stop
    omega
  · rw [hadvance]
    exact .failed he

theorem keeps_expect {token : Token} : Keeps source lo (expect token) := by
  refine keeps_isAt.bind fun found => ?_
  split
  · exact keeps_advance.bind fun _ => .pure
  · exact .failHere

theorem keeps_symbol {s : Symbol} : Keeps source lo (symbol s) :=
  keeps_expect

theorem keeps_keyword {k : Keyword} : Keeps source lo (keyword k) :=
  keeps_expect

theorem keeps_name {role : NameRole} : Keeps source lo (name role) := by
  refine keeps_peek.bind fun token => ?_
  split
  · exact keeps_advance.bind fun _ => .pure
  · exact .failHere

/-- Passing a keyword, in front of a parse that may count on where the keyword stands. -/
theorem Keeps.afterKeyword {k : Keyword} {f : Span → Parse β}
    (hf : ∀ span : Span, span.LiesIn source → Keeps source span.start (f span)) :
    Keeps source lo (keyword k >>= f) := by
  intro s hs hlo
  have hreply : Ends source lo (keyword k s) := keeps_keyword s hs hlo
  rw [bind_apply]
  cases hkeyword : keyword k s with
  | failed e t =>
    rw [hkeyword] at hreply
    cases hreply with
    | failed he => exact .failed he
  | done span t =>
    rw [hkeyword] at hreply
    cases hreply with
    | done ht hle =>
      have hpasses := keyword_done_iff.1 hkeyword
      have hspan : span.LiesIn source := by
        have hcurrent := hs.current
        rwa [hpasses.current_eq] at hcurrent
      have hstop : t.lastStop = span.stop := hpasses.lastStop_eq (by simp)
      have hstart : lo ≤ span.start := by
        have hle := hs.lastStop_le
        rw [hpasses.current_eq] at hle
        exact Nat.le_trans hlo hle
      exact (hf span hspan t ht (hstop ▸ hspan.start_le_stop)).mono hstart

/-! ## Loops -/

namespace Keeps

variable {more : Parse Bool} {item : Parse α}

theorem manyUpTo (hmore : Keeps source lo more) (hitem : Keeps source lo item) (n : Nat) :
    Keeps source lo (manyUpTo more item n) := by
  induction n with
  | zero => exact .exhausted
  | succ n ih =>
    refine hmore.bind fun goesOn => ?_
    split
    · exact hitem.bind fun _ => ih.bind fun _ => .pure
    · exact .pure

theorem many (hmore : Keeps source lo more) (hitem : Keeps source lo item) :
    Keeps source lo (many more item) :=
  .withBudget (hmore.manyUpTo hitem)

theorem afterAdvance (hitem : Keeps source lo item) :
    Keeps source lo (do let _ ← advance; item) :=
  keeps_advance.bind fun _ => hitem

theorem commaList {close : Symbol} (hitem : Keeps source lo item) :
    Keeps source lo (commaList close item) := by
  refine keeps_isAt.bind fun found => ?_
  split
  · exact .pure
  · exact hitem.bind fun _ => (keeps_isAt.many hitem.afterAdvance).bind fun _ => .pure

end Keeps

/-! ## Expressions -/

section Expressions

variable {sub : Parse Expr}

theorem keeps_arguments (hsub : Keeps source lo sub) : Keeps source lo (arguments sub) :=
  keeps_symbol.bind fun _ => hsub.commaList.bind fun _ => keeps_symbol.bind fun _ => .pure

theorem keeps_nameForm (hsub : Keeps source lo sub) : Keeps source lo (nameForm sub) := by
  refine keeps_name.bind fun word => keeps_peek.bind fun token => ?_
  split
  · exact keeps_advance.bind fun _ => hsub.bind fun _ => .pure
  · exact keeps_advance.bind fun _ => hsub.bind fun _ => keeps_symbol.bind fun _ =>
      keeps_lastStop.bind fun _ => .pure
  · exact .pure

theorem keeps_lambdaHeader : Keeps source lo lambdaHeader :=
  keeps_symbol.bind fun _ => keeps_name.commaList.bind fun _ => keeps_symbol.bind fun _ =>
    keeps_symbol.bind fun _ => .pure

theorem keeps_bracketForm (hsub : Keeps source lo sub) : Keeps source lo (bracketForm sub) := by
  refine keeps_here.bind fun start => keeps_lambdaHeader.attempt.bind fun header => ?_
  split
  · exact hsub.bind fun _ => .pure
  · exact keeps_symbol.bind fun _ => hsub.bind fun _ => keeps_symbol.bind fun _ =>
      keeps_lastStop.bind fun _ => .pure

theorem keeps_arrayForm (hsub : Keeps source lo sub) : Keeps source lo (arrayForm sub) :=
  keeps_symbol.bind fun _ => hsub.commaList.bind fun _ => keeps_symbol.bind fun _ =>
    keeps_lastStop.bind fun _ => .pure

theorem keeps_callForm (hsub : Keeps source lo sub) : Keeps source lo (callForm sub) :=
  keeps_keyword.bind fun _ => keeps_name.bind fun _ => (keeps_arguments hsub).bind fun _ =>
    keeps_lastStop.bind fun _ => .pure

theorem keeps_targetType : Keeps source lo targetType := by
  refine .atToken fun token htoken => ?_
  split
  · exact .pure
  · exact .fail htoken

theorem keeps_methodForm (hsub : Keeps source lo sub) : Keeps source lo (methodForm sub) :=
  keeps_keyword.bind fun _ => keeps_symbol.hinting.bind fun _ => keeps_targetType.bind fun _ =>
    keeps_name.bind fun _ => keeps_symbol.hinting.bind fun _ => keeps_name.bind fun _ =>
    (keeps_arguments hsub).bind fun _ => keeps_lastStop.bind fun _ => .pure

theorem keeps_atom (hsub : Keeps source lo sub) : Keeps source lo (atom sub) := by
  refine .atToken fun token htoken => ?_
  split
  case h_9 =>
    exact hsub.bind fun _ => keeps_symbol.bind fun _ => keeps_lastStop.bind fun _ => .pure
  case h_10 => exact .fail htoken
  all_goals exact .pure

theorem keeps_primary (hsub : Keeps source lo sub) : Keeps source lo (primary sub) := by
  refine keeps_peek.bind fun token => ?_
  split
  · exact keeps_nameForm hsub
  · exact keeps_bracketForm hsub
  · exact keeps_arrayForm hsub
  · exact keeps_callForm hsub
  · exact keeps_methodForm hsub
  · exact keeps_atom hsub

theorem keeps_operandUpTo (hsub : Keeps source lo sub) (n : Nat) :
    Keeps source lo (operandUpTo sub n) := by
  induction n with
  | zero => exact .exhausted
  | succ n ih =>
    refine keeps_peek.bind fun token => ?_
    split
    · exact keeps_primary hsub
    · exact keeps_advance.bind fun _ => ih.bind fun _ => .pure

theorem keeps_climbUpTo {sub : Nat → Parse Expr} (hsub : ∀ level, Keeps source lo (sub level))
    (level n : Nat) (left : Expr) : Keeps source lo (climbUpTo sub level n left) := by
  induction n generalizing left with
  | zero => exact .exhausted
  | succ n ih =>
    refine keeps_peek.bind fun token => ?_
    split
    · exact .pure
    · split
      · exact keeps_advance.bind fun _ => (hsub _).bind fun _ => ih _
      · exact .pure

theorem keeps_expressionUpTo (n level : Nat) : Keeps source lo (expressionUpTo n level) := by
  induction n generalizing level with
  | zero => exact .exhausted
  | succ n ih =>
    exact (Keeps.withBudget (keeps_operandUpTo (ih 1))).bind fun left =>
      .withBudget fun budget => keeps_climbUpTo ih level budget left

theorem keeps_expression : Keeps source lo expression :=
  .withBudget fun n => keeps_expressionUpTo n 1

theorem keeps_standalone : Keeps source lo standalone := by
  refine keeps_expression.bind fun e => keeps_isAt.bind fun atEnd => ?_
  split
  · exact .pure
  · exact .failHere

end Expressions

/-! ## Parts of statements -/

theorem keeps_binding : Keeps source lo binding := by
  refine keeps_peek.bind fun token => ?_
  split
  · exact keeps_advance.bind fun _ => .pure
  · exact keeps_advance.bind fun _ => .pure
  · exact .pure

theorem keeps_annotation : Keeps source lo annotation := by
  refine keeps_isAt.bind fun found => ?_
  split
  · refine keeps_advance.bind fun _ => .atToken fun token htoken => ?_
    split
    · exact .pure
    · exact .fail htoken
  · exact .pure

theorem keeps_optionalValue : Keeps source lo optionalValue := by
  refine keeps_isAt.bind fun found => ?_
  split
  · exact keeps_advance.bind fun _ => keeps_expression.bind fun _ => .pure
  · exact .pure

/-- The end of what has been passed, in front of a parse that may fail there. -/
theorem Keeps.atLastStop {f : Nat → Parse β}
    (hf : ∀ stop, lo ≤ stop → IsBoundary source stop → Keeps source lo (f stop)) :
    Keeps source lo (lastStop >>= f) :=
  fun s hs hlo => hf s.lastStop hlo hs.passed s hs hlo

/-- A declaration that is refused is so from its keyword to the last token passed for it, which is
not in front of the keyword. -/
theorem keeps_declaration : Keeps source lo declaration := by
  refine keeps_binding.bind fun binding => .afterKeyword fun start hstart => ?_
  refine keeps_name.bind fun word => keeps_annotation.bind fun type =>
    keeps_optionalValue.bind fun value => .atLastStop fun stop hle hstop => ?_
  have hspan : (Span.mk start.start stop).LiesIn source :=
    ⟨hle, hstop.le, hstart.isBoundary_start, hstop⟩
  split
  · exact .fail hspan
  · split
    · exact .fail hspan
    · exact .pure

theorem keeps_storing : Keeps source lo storing := by
  refine keeps_binding.bind fun binding => keeps_keyword.bind fun _ => keeps_name.bind fun word =>
    keeps_symbol.bind fun _ => .atToken fun token htoken => ?_
  split
  · exact keeps_symbol.bind fun _ => .pure
  · exact .fail htoken

theorem keeps_indexInBraces : Keeps source lo indexInBraces :=
  keeps_advance.bind fun _ => keeps_expression.bind fun _ => keeps_symbol.bind fun _ => .pure

theorem keeps_mutation : Keeps source lo mutation :=
  keeps_keyword.bind fun _ => keeps_name.bind fun _ =>
    (keeps_isAt.many keeps_indexInBraces).bind fun _ => keeps_symbol.bind fun _ =>
    keeps_expression.bind fun _ => .pure

theorem keeps_condition : Keeps source lo condition :=
  keeps_symbol.bind fun _ => keeps_expression.bind fun _ => keeps_symbol.bind fun _ => .pure

theorem keeps_blockGoesOn : Keeps source lo blockGoesOn := by
  refine keeps_peek.bind fun token => ?_
  split
  · exact .pure
  · exact .failHere
  · exact .pure

theorem keeps_checkGoesOn : Keeps source lo checkGoesOn := by
  refine keeps_isAt.bind fun found => ?_
  split
  · exact keeps_lookahead.bind fun _ => .pure
  · exact .pure

theorem keeps_overCollection : Keeps source lo overCollection := by
  refine keeps_peek.bind fun token => ?_
  split
  · exact keeps_lookahead.bind fun _ => .pure
  · exact .pure

theorem keeps_rangeStep : Keeps source lo rangeStep := by
  refine keeps_isAt.bind fun found => ?_
  split
  · exact keeps_expression.afterAdvance
  · exact keeps_here.bind fun _ => .pure

theorem keeps_loopStart : Keeps source lo loopStart := by
  refine keeps_peek.bind fun token => ?_
  split
  · exact keeps_declaration.bind fun _ => .pure
  · exact keeps_declaration.bind fun _ => .pure
  · exact keeps_declaration.bind fun _ => .pure
  · exact keeps_mutation.bind fun _ => .pure
  · exact keeps_name.bind fun _ => .pure
  · exact .failHere

theorem Keeps.located {p : Parse α} (hp : Keeps source lo p) : Keeps source lo (located p) :=
  keeps_here.bind fun _ => hp.bind fun _ => keeps_lastStop.bind fun _ => .pure

/-! ## Statements -/

section Statements

variable {sub : Parse Stmt}

theorem keeps_block (hsub : Keeps source lo sub) : Keeps source lo (block sub) :=
  keeps_symbol.bind fun _ => (keeps_blockGoesOn.many hsub).bind fun _ =>
    keeps_symbol.bind fun _ => .pure

theorem keeps_guarded (hsub : Keeps source lo sub) : Keeps source lo (guarded sub) :=
  keeps_keyword.bind fun _ => keeps_condition.bind fun _ => (keeps_block hsub).bind fun _ => .pure

theorem keeps_lastBlock (hsub : Keeps source lo sub) : Keeps source lo (lastBlock sub) := by
  refine keeps_isAt.bind fun found => ?_
  split
  · exact keeps_advance.bind fun _ => (keeps_block hsub).bind fun _ => .pure
  · exact .pure

theorem keeps_checkForm (hsub : Keeps source lo sub) : Keeps source lo (checkForm sub) :=
  (keeps_guarded hsub).bind fun _ =>
    (keeps_checkGoesOn.many (keeps_guarded hsub).afterAdvance).bind fun _ =>
    (keeps_lastBlock hsub).bind fun _ => .pure

theorem keeps_repeatForm (hsub : Keeps source lo sub) : Keeps source lo (repeatForm sub) := by
  refine keeps_keyword.bind fun _ => keeps_symbol.bind fun _ => keeps_name.bind fun counter =>
    keeps_keyword.hinting.bind fun _ => keeps_overCollection.bind fun each => ?_
  split
  · exact keeps_name.bind fun _ => keeps_symbol.bind fun _ => (keeps_block hsub).bind fun _ => .pure
  · exact keeps_expression.bind fun _ => keeps_keyword.hinting.bind fun _ =>
      keeps_expression.bind fun _ => keeps_rangeStep.bind fun _ => keeps_symbol.bind fun _ =>
      (keeps_block hsub).bind fun _ => .pure

theorem keeps_untilForm (hsub : Keeps source lo sub) : Keeps source lo (untilForm sub) :=
  keeps_keyword.bind fun _ => keeps_keyword.bind fun _ => keeps_condition.bind fun _ =>
    (keeps_block hsub).bind fun _ => .pure

theorem keeps_forForm (hsub : Keeps source lo sub) : Keeps source lo (forForm sub) :=
  keeps_keyword.bind fun _ => keeps_symbol.bind fun _ => keeps_loopStart.located.bind fun _ =>
    keeps_symbol.bind fun _ => keeps_expression.bind fun _ => keeps_symbol.bind fun _ =>
    keeps_mutation.located.bind fun _ => keeps_symbol.bind fun _ =>
    (keeps_block hsub).bind fun _ => .pure

theorem keeps_functionForm (hsub : Keeps source lo sub) : Keeps source lo (functionForm sub) :=
  keeps_keyword.bind fun _ => keeps_name.bind fun _ => keeps_symbol.bind fun _ =>
    keeps_name.commaList.bind fun _ => keeps_symbol.bind fun _ => keeps_annotation.bind fun _ =>
    (keeps_block hsub).bind fun _ => .pure

theorem keeps_declareForm : Keeps source lo declareForm :=
  keeps_declaration.bind fun _ => keeps_symbol.bind fun _ => .pure

theorem keeps_storeForm : Keeps source lo storeForm :=
  keeps_storing.bind fun _ => .pure

theorem keeps_qualifiedForm : Keeps source lo qualifiedForm := by
  refine keeps_lookahead.bind fun token => ?_
  split
  · exact keeps_declareForm
  · exact keeps_storeForm
  · exact .failHere

theorem keeps_updateForm : Keeps source lo updateForm :=
  keeps_mutation.bind fun _ => keeps_symbol.bind fun _ => .pure

theorem keeps_valueForm {make : Expr → Span → Stmt} : Keeps source lo (valueForm make) :=
  keeps_advance.bind fun _ => keeps_expression.bind fun _ => keeps_symbol.bind fun _ => .pure

theorem keeps_bareForm {make : Span → Stmt} : Keeps source lo (bareForm make) :=
  keeps_advance.bind fun _ => keeps_symbol.bind fun _ => .pure

theorem keeps_rawForm {code : String} : Keeps source lo (rawForm code) := by
  refine keeps_advance.bind fun _ => keeps_isAt.bind fun found => ?_
  split
  · exact keeps_advance.bind fun _ => .pure
  · exact .pure

theorem keeps_exprForm : Keeps source lo exprForm :=
  keeps_expression.bind fun _ => keeps_symbol.bind fun _ => .pure

theorem keeps_statementForm (hsub : Keeps source lo sub) : Keeps source lo (statementForm sub) := by
  refine keeps_peek.bind fun token => ?_
  split
  · exact keeps_qualifiedForm
  · exact keeps_qualifiedForm
  · exact keeps_declareForm
  · exact keeps_storeForm
  · exact keeps_updateForm
  · exact keeps_checkForm hsub
  · refine keeps_lookahead.bind fun second => ?_
    split
    · exact keeps_untilForm hsub
    · exact keeps_repeatForm hsub
  · exact keeps_forForm hsub
  · exact keeps_functionForm hsub
  · exact keeps_valueForm
  · exact keeps_valueForm
  · exact keeps_valueForm
  · exact keeps_valueForm
  · exact keeps_bareForm
  · exact keeps_bareForm
  · exact keeps_rawForm
  · exact keeps_exprForm
  · exact keeps_exprForm
  · exact .failHere

theorem keeps_statementUpTo (n : Nat) : Keeps source lo (statementUpTo n) := by
  induction n with
  | zero => exact .exhausted
  | succ n ih =>
    exact keeps_here.bind fun _ => (keeps_statementForm ih).bind fun _ =>
      keeps_lastStop.bind fun _ => .pure

theorem keeps_program : Keeps source lo program := by
  have hmore : Keeps source lo (do pure !(← isAt .endOfFile)) := keeps_isAt.bind fun _ => .pure
  exact hmore.many (.withBudget keeps_statementUpTo)

end Statements

/-! ## Whole sources -/

/-- A parse of a source that fails does so in the source. -/
theorem Keeps.liesIn_of_error {p : Parse α} (hp : Keeps source 0 p) {e : Error}
    (h : (ParseState.ofText source >>= fun start => p.run start) = .error e) :
    e.span.LiesIn source := by
  cases hstart : ParseState.ofText source with
  | error e' =>
    rw [hstart] at h
    cases h
    exact ParseState.liesIn_of_ofText_error hstart
  | ok s =>
    rw [hstart] at h
    have hreply := hp s (ParseState.liesIn_ofText hstart) (Nat.zero_le _)
    change p.run s = .error e at h
    unfold run at h
    generalize p s = reply at h hreply
    cases hreply with
    | done ht hle => cases h
    | failed he =>
      cases h
      exact he

end Parse

theorem liesIn_of_parseProgram_error {source : String} {e : Error}
    (h : parseProgram source = .error e) : e.span.LiesIn source :=
  Parse.keeps_program.liesIn_of_error h

theorem liesIn_of_parseExpression_error {source : String} {e : Error}
    (h : parseExpression source = .error e) : e.span.LiesIn source :=
  Parse.keeps_standalone.liesIn_of_error h

end Resin
