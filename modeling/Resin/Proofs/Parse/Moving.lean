import Resin.Parse.Stmt
import Resin.Proofs.Parse.Passing

/-!
# Parses do not look at places

A parse decides by the values of tokens alone. Spans are only copied and put together from the ends
of other spans, so moving the ends of all spans in a source moves the result of a parse in the same
way, be it a tree or an error. The move is any function `g` on offsets: with `(· + n)` it says what
becomes of a text that stands later in a source, with `(· - n)` what becomes of a text that is cut
out of one, and with a constant that trees and errors depend on the tokens only.

* `Tracks g R p q`: run from moved states, `q` ends as `p` does, with moved states and moved errors,
  and with values that `R` relates. It goes through sequences (`Tracks.bind`), so that each parse is
  followed along its definition.
* `tracks_program`, `tracks_standalone`: the two parses that read a whole source.
-/

namespace Resin

/-! ## Moving -/

/-- The span with both ends moved. -/
def Span.move (g : Nat → Nat) (span : Span) : Span :=
  ⟨g span.start, g span.stop⟩

/-- The value at the moved place. -/
def Located.move {α : Type} (g : Nat → Nat) (x : Located α) : Located α :=
  ⟨x.value, x.span.move g⟩

/-- The same failure at the moved place. -/
def Error.move (g : Nat → Nat) (e : Error) : Error :=
  { e with span := e.span.move g }

/-- The token or the error at the moved place. -/
def Outcome.move (g : Nat → Nat) : Outcome → Outcome
  | .ok token => .ok (token.move g)
  | .error e => .error (e.move g)

/-- The outcomes at the moved places. -/
def Stream.move (g : Nat → Nat) (s : Stream) : Stream :=
  ⟨s.items.map (Outcome.move g), g s.stop⟩

/-- The state of a parse in the moved source. -/
def ParseState.move (g : Nat → Nat) (s : ParseState) : ParseState :=
  ⟨s.current.move g, s.ahead.move g, g s.lastStop⟩

/-- The tree with all ends of its spans moved. -/
abbrev Expr.move (g : Nat → Nat) : Expr → Expr :=
  Expr.mapSpans (Span.move g)

/-- The tree with all ends of its spans moved. -/
abbrev Stmt.move (g : Nat → Nat) : Stmt → Stmt :=
  Stmt.mapSpans (Span.move g)

theorem Stream.next_move (g : Nat → Nat) (s : Stream) :
    (s.move g).next = (s.next.1.move g, s.next.2.move g) := by
  obtain ⟨items, stop⟩ := s
  cases items with
  | nil => rfl
  | cons outcome items => rfl

theorem ParseState.budget_move (g : Nat → Nat) (s : ParseState) : (s.move g).budget = s.budget := by
  simp [budget, move, Stream.move]

theorem Expr.mapSpans_withSpan (f : Span → Span) (span : Span) (e : Expr) :
    (e.withSpan span).mapSpans f = (e.mapSpans f).withSpan (f span) := by
  cases e <;> rfl

/-- In the moved source the moved tokens are passed. -/
theorem ParseState.Passes.move {s t : ParseState} {ts : List (Located Token)} (g : Nat → Nat)
    (h : s.Passes ts t) : (s.move g).Passes (ts.map (Located.move g)) (t.move g) := by
  induction h with
  | nil => exact .nil
  | @cons s u t token ts hne ha _ ih =>
    obtain ⟨rfl, hnext, hstop⟩ := advance_done_iff.1 ha
    refine .cons (u := u.move g) hne (advance_done_iff.2 ⟨rfl, ?_, ?_⟩) ih
    · change (s.ahead.move g).next = _
      rw [Stream.next_move, hnext]
      rfl
    · exact congrArg g hstop

namespace Parse

variable {α β γ δ : Type} {g : Nat → Nat}

/-- The second value is the image of the first. -/
abbrev By (f : α → β) (a : α) (b : β) : Prop :=
  b = f a

/-- The second reply is the first in the moved source, its values related by `R`. -/
inductive Follows (g : Nat → Nat) (R : α → β → Prop) : Reply α → Reply β → Prop
  | done {a : α} {b : β} {t : ParseState} : R a b → Follows g R (.done a t) (.done b (t.move g))
  | failed {e : Error} {t : ParseState} :
    Follows g R (.failed e t) (.failed (e.move g) (t.move g))

/-- In the moved source, `q` ends as `p` does, with values that `R` relates. -/
def Tracks (g : Nat → Nat) (R : α → β → Prop) (p : Parse α) (q : Parse β) : Prop :=
  ∀ s : ParseState, Follows g R (p s) (q (s.move g))

/-! ## Combinators -/

namespace Tracks

variable {R : α → β → Prop} {Q : γ → δ → Prop} {p : Parse α} {q : Parse β}

theorem bind {k : α → Parse γ} {h : β → Parse δ} (hp : Tracks g R p q)
    (hk : ∀ a b, R a b → Tracks g Q (k a) (h b)) : Tracks g Q (p >>= k) (q >>= h) := by
  intro s
  rw [bind_apply, bind_apply]
  have hs := hp s
  generalize p s = r, q (s.move g) = r' at hs
  cases hs with
  | done hab => exact hk _ _ hab _
  | failed => exact .failed

/-- A sequence whose first value moves by `f`. -/
theorem seq {f : α → β} {k : α → Parse γ} {h : β → Parse δ} (hp : Tracks g (By f) p q)
    (hk : ∀ a, Tracks g Q (k a) (h (f a))) : Tracks g Q (p >>= k) (q >>= h) :=
  hp.bind fun a _ hab => hab ▸ hk a

/-- A sequence whose first value is the same in both sources. -/
theorem seqEq {q : Parse α} {k : α → Parse γ} {h : α → Parse δ} (hp : Tracks g Eq p q)
    (hk : ∀ a, Tracks g Q (k a) (h a)) : Tracks g Q (p >>= k) (q >>= h) :=
  hp.bind fun a _ hab => hab ▸ hk a

theorem pure {a : α} {b : β} (h : R a b) : Tracks g R (pure a : Parse α) (pure b) :=
  fun _ => .done h

theorem fail {cause : Cause} {span : Span} :
    Tracks g R (fail cause span) (fail cause (span.move g)) :=
  fun _ => .failed

theorem failHere {cause : Token → Cause} : Tracks g R (failHere cause) (failHere cause) :=
  fun _ => .failed

theorem exhausted : Tracks g R exhausted exhausted :=
  failHere

theorem hinting {hint : Hint} (hp : Tracks g R p q) :
    Tracks g R (hinting hint p) (hinting hint q) := by
  intro s
  have hs := hp s
  unfold Parse.hinting
  generalize p s = r, q (s.move g) = r' at hs
  cases hs with
  | done hab => exact .done hab
  | failed => exact .failed

/-- What is attempted succeeds in both sources or in none. -/
theorem attempt {q : Parse α} (hp : Tracks g Eq p q) :
    Tracks g Eq (attempt p) (attempt q) := by
  intro s
  have hs := hp s
  unfold Parse.attempt
  generalize p s = r, q (s.move g) = r' at hs
  cases hs with
  | done hab => exact .done (congrArg some hab)
  | failed => exact .done rfl

theorem withBudget {p : Nat → Parse α} {q : Nat → Parse β}
    (h : ∀ n, Tracks g R (p n) (q n)) : Tracks g R (withBudget p) (withBudget q) := by
  intro s
  change Follows g R (p s.budget s) (q (s.move g).budget (s.move g))
  rw [s.budget_move g]
  exact h s.budget s

end Tracks

/-! ## Primitive parses -/

theorem tracks_peek : Tracks g Eq peek peek :=
  fun _ => .done rfl

theorem tracks_here : Tracks g (By (Span.move g)) here here :=
  fun _ => .done rfl

theorem tracks_lastStop : Tracks g (By g) lastStop lastStop :=
  fun _ => .done rfl

theorem tracks_isAt {token : Token} : Tracks g Eq (isAt token) (isAt token) :=
  fun _ => .done rfl

theorem tracks_lookahead : Tracks g Eq lookahead lookahead := by
  intro s
  unfold lookahead
  rw [show (s.move g).ahead.next = _ from s.ahead.next_move g]
  cases s.ahead.next.1 with
  | ok token => exact .done rfl
  | error e => exact .failed

theorem tracks_advance : Tracks g (By (Located.move g)) advance advance := by
  intro s
  unfold advance
  rw [show (s.move g).ahead.next = _ from s.ahead.next_move g]
  obtain ⟨outcome, rest⟩ := s.ahead.next
  cases outcome with
  | ok token => exact .done rfl
  | error e => exact .failed

theorem tracks_expect {token : Token} :
    Tracks g (By (Span.move g)) (expect token) (expect token) := by
  refine tracks_isAt.seqEq fun found => ?_
  split
  · exact tracks_advance.seq fun _ => .pure rfl
  · exact .failHere

theorem tracks_symbol {s : Symbol} : Tracks g (By (Span.move g)) (symbol s) (symbol s) :=
  tracks_expect

theorem tracks_keyword {k : Keyword} : Tracks g (By (Span.move g)) (keyword k) (keyword k) :=
  tracks_expect

theorem tracks_name {role : NameRole} :
    Tracks g (By (Located.move g)) (name role) (name role) := by
  refine tracks_peek.seqEq fun token => ?_
  split
  · exact tracks_advance.seq fun _ => .pure rfl
  · exact .failHere

/-! ## Loops -/

namespace Tracks

variable {f : α → β} {more : Parse Bool} {p : Parse α} {q : Parse β}

theorem manyUpTo (hmore : Tracks g Eq more more) (hitem : Tracks g (By f) p q) (n : Nat) :
    Tracks g (By (List.map f)) (manyUpTo more p n) (manyUpTo more q n) := by
  induction n with
  | zero => exact .exhausted
  | succ n ih =>
    refine hmore.seqEq fun b => ?_
    split
    · exact hitem.seq fun first => ih.seq fun rest => .pure rfl
    · exact .pure rfl

theorem many (hmore : Tracks g Eq more more) (hitem : Tracks g (By f) p q) :
    Tracks g (By (List.map f)) (many more p) (many more q) :=
  .withBudget (hmore.manyUpTo hitem)

/-- A token in front of what is parsed. -/
theorem afterToken {R : α → β → Prop} (hp : Tracks g R p q) :
    Tracks g R (do let _ ← advance; p) (do let _ ← advance; q) :=
  tracks_advance.seq fun _ => hp

theorem commaList {close : Symbol} (hitem : Tracks g (By f) p q) :
    Tracks g (By (List.map f)) (commaList close p) (commaList close q) := by
  refine tracks_isAt.seqEq fun b => ?_
  split
  · exact .pure rfl
  · exact hitem.seq fun first => (tracks_isAt.many hitem.afterToken).seq fun rest => .pure rfl

end Tracks

/-- The values of located items do not move. -/
theorem map_value_move (xs : List (Located α)) :
    (xs.map (Located.move g)).map Located.value = xs.map Located.value := by
  rw [List.map_map]
  rfl

/-! ## Expressions -/

/-- The parse reads the moved expression off the moved source. -/
abbrev TracksExpr (g : Nat → Nat) (p : Parse Expr) : Prop :=
  Tracks g (By (Expr.move g)) p p

section Expressions

variable {sub : Parse Expr}

theorem tracks_arguments (hsub : TracksExpr g sub) :
    Tracks g (By (List.map (Expr.move g))) (arguments sub) (arguments sub) :=
  tracks_symbol.seq fun _ => hsub.commaList.seq fun _ => tracks_symbol.seq fun _ => .pure rfl

theorem tracks_nameForm (hsub : TracksExpr g sub) : TracksExpr g (nameForm sub) := by
  refine tracks_name.seq fun word => tracks_peek.seqEq fun token => ?_
  split
  · refine tracks_advance.seq fun _ => hsub.seq fun body => .pure ?_
    rw [Expr.span_mapSpans]
    rfl
  · exact tracks_advance.seq fun _ => hsub.seq fun index => tracks_symbol.seq fun _ =>
      tracks_lastStop.seq fun stop => .pure rfl
  · exact .pure rfl

theorem tracks_lambdaHeader : Tracks g Eq lambdaHeader lambdaHeader :=
  tracks_symbol.seq fun _ => tracks_name.commaList.seq fun params => tracks_symbol.seq fun _ =>
    tracks_symbol.seq fun _ => .pure (map_value_move params).symm

theorem tracks_bracketForm (hsub : TracksExpr g sub) : TracksExpr g (bracketForm sub) := by
  refine tracks_here.seq fun start => tracks_lambdaHeader.attempt.seqEq fun header => ?_
  cases header with
  | some params =>
    refine hsub.seq fun body => .pure ?_
    rw [Expr.span_mapSpans]
    rfl
  | none =>
    refine tracks_symbol.seq fun _ => hsub.seq fun inner => tracks_symbol.seq fun _ =>
      tracks_lastStop.seq fun stop => .pure ?_
    exact (Expr.mapSpans_withSpan (Span.move g) ⟨start.start, stop⟩ inner).symm

theorem tracks_arrayForm (hsub : TracksExpr g sub) : TracksExpr g (arrayForm sub) := by
  refine tracks_symbol.seq fun start => hsub.commaList.seq fun elements =>
    tracks_symbol.seq fun _ => tracks_lastStop.seq fun stop => .pure ?_
  rw [← Expr.mapSpansList_eq_map]
  rfl

theorem tracks_callForm (hsub : TracksExpr g sub) : TracksExpr g (callForm sub) := by
  refine tracks_keyword.seq fun start => tracks_name.seq fun callee =>
    (tracks_arguments hsub).seq fun args => tracks_lastStop.seq fun stop => .pure ?_
  rw [← Expr.mapSpansList_eq_map]
  rfl

theorem tracks_targetType : Tracks g (By (Located.move g)) targetType targetType := by
  refine tracks_advance.seq fun token => ?_
  obtain ⟨value, span⟩ := token
  dsimp only [Located.move]
  split
  · exact .pure rfl
  · exact .fail

theorem tracks_methodForm (hsub : TracksExpr g sub) : TracksExpr g (methodForm sub) := by
  refine tracks_keyword.seq fun start => tracks_symbol.hinting.seq fun _ =>
    tracks_targetType.seq fun type => tracks_name.seq fun target =>
    tracks_symbol.hinting.seq fun _ => tracks_name.seq fun method =>
    (tracks_arguments hsub).seq fun args => tracks_lastStop.seq fun stop => .pure ?_
  rw [← Expr.mapSpansList_eq_map]
  rfl

theorem tracks_atom (hsub : TracksExpr g sub) : TracksExpr g (atom sub) := by
  refine tracks_advance.seq fun token => ?_
  obtain ⟨value, span⟩ := token
  dsimp only [Located.move]
  split
  case h_9 =>
    refine hsub.seq fun inner => tracks_symbol.seq fun _ => tracks_lastStop.seq fun stop =>
      .pure ?_
    exact (Expr.mapSpans_withSpan (Span.move g) ⟨span.start, stop⟩ inner).symm
  case h_10 => exact .fail
  all_goals exact .pure rfl

theorem tracks_primary (hsub : TracksExpr g sub) : TracksExpr g (primary sub) := by
  refine tracks_peek.seqEq fun token => ?_
  split
  · exact tracks_nameForm hsub
  · exact tracks_bracketForm hsub
  · exact tracks_arrayForm hsub
  · exact tracks_callForm hsub
  · exact tracks_methodForm hsub
  · exact tracks_atom hsub

theorem tracks_operandUpTo (hsub : TracksExpr g sub) (n : Nat) :
    TracksExpr g (operandUpTo sub n) := by
  induction n with
  | zero => exact .exhausted
  | succ n ih =>
    refine tracks_peek.seqEq fun token => ?_
    split
    · exact tracks_primary hsub
    · refine tracks_advance.seq fun token => ih.seq fun operand => .pure ?_
      rw [Expr.span_mapSpans]
      rfl

theorem tracks_climbUpTo {sub : Nat → Parse Expr} (hsub : ∀ level, TracksExpr g (sub level))
    (level n : Nat) (left : Expr) :
    Tracks g (By (Expr.move g)) (climbUpTo sub level n left)
      (climbUpTo sub level n (left.move g)) := by
  induction n generalizing left with
  | zero => exact .exhausted
  | succ n ih =>
    refine tracks_peek.seqEq fun token => ?_
    split
    · exact .pure rfl
    · split
      · refine tracks_advance.seq fun _ => (hsub _).seq fun right => ?_
        rw [Expr.span_mapSpans, Expr.span_mapSpans]
        exact ih _
      · exact .pure rfl

theorem tracks_expressionUpTo (n level : Nat) : TracksExpr g (expressionUpTo n level) := by
  induction n generalizing level with
  | zero => exact .exhausted
  | succ n ih =>
    exact (Tracks.withBudget (tracks_operandUpTo (ih 1))).seq fun left =>
      .withBudget fun budget => tracks_climbUpTo ih level budget left

theorem tracks_expression : TracksExpr g expression :=
  .withBudget fun n => tracks_expressionUpTo n 1

theorem tracks_standalone : TracksExpr g standalone := by
  refine tracks_expression.seq fun e => tracks_isAt.seqEq fun atEnd => ?_
  split
  · exact .pure rfl
  · exact .failHere

end Expressions

/-! ## Parts of statements -/

theorem tracks_binding : Tracks g Eq binding binding := by
  refine tracks_peek.seqEq fun token => ?_
  split
  · exact tracks_advance.seq fun _ => .pure rfl
  · exact tracks_advance.seq fun _ => .pure rfl
  · exact .pure rfl

theorem tracks_annotation : Tracks g (By (Option.map (Located.move g))) annotation annotation := by
  refine tracks_isAt.seqEq fun found => ?_
  split
  · refine tracks_advance.seq fun _ => tracks_advance.seq fun token => ?_
    obtain ⟨value, span⟩ := token
    dsimp only [Located.move]
    split
    · exact .pure rfl
    · exact .fail
  · exact .pure rfl

theorem tracks_optionalValue :
    Tracks g (By (Option.map (Expr.move g))) optionalValue optionalValue := by
  refine tracks_isAt.seqEq fun found => ?_
  split
  · exact tracks_advance.seq fun _ => tracks_expression.seq fun value => .pure rfl
  · exact .pure rfl

theorem tracks_declaration :
    Tracks g (By (Declaration.mapSpans (Span.move g))) declaration declaration := by
  refine tracks_binding.seqEq fun binding => tracks_keyword.seq fun start =>
    tracks_name.seq fun word => tracks_annotation.seq fun type =>
    tracks_optionalValue.seq fun value => tracks_lastStop.seq fun stop => ?_
  -- whether there is a type or a value is the same in both sources
  rw [Option.isNone_map, Option.isNone_map]
  split
  · exact .fail
  · split
    · exact .fail
    · exact .pure rfl

theorem tracks_storing :
    Tracks g (By fun s => { s with contentSpan := s.contentSpan.move g }) storing storing := by
  refine tracks_binding.seqEq fun binding => tracks_keyword.seq fun _ =>
    tracks_name.seq fun word => tracks_symbol.seq fun _ =>
    tracks_advance.seq fun token => ?_
  obtain ⟨value, span⟩ := token
  dsimp only [Located.move]
  split
  · exact tracks_symbol.seq fun _ => .pure rfl
  · exact .fail

theorem tracks_indexInBraces : TracksExpr g indexInBraces :=
  tracks_advance.seq fun _ => tracks_expression.seq fun _ => tracks_symbol.seq fun _ =>
    .pure rfl

theorem tracks_mutation : Tracks g (By (Mutation.mapSpans (Span.move g))) mutation mutation :=
  tracks_keyword.seq fun _ => tracks_name.seq fun _ =>
    (tracks_isAt.many tracks_indexInBraces).seq fun _ => tracks_symbol.seq fun _ =>
    tracks_expression.seq fun _ => .pure rfl

theorem tracks_condition : TracksExpr g condition :=
  tracks_symbol.seq fun _ => tracks_expression.seq fun _ => tracks_symbol.seq fun _ => .pure rfl

theorem tracks_blockGoesOn : Tracks g Eq blockGoesOn blockGoesOn := by
  refine tracks_peek.seqEq fun token => ?_
  split
  · exact .pure rfl
  · exact .failHere
  · exact .pure rfl

theorem tracks_checkGoesOn : Tracks g Eq checkGoesOn checkGoesOn := by
  refine tracks_isAt.seqEq fun found => ?_
  split
  · exact tracks_lookahead.seqEq fun second => .pure rfl
  · exact .pure rfl

theorem tracks_overCollection : Tracks g Eq overCollection overCollection := by
  refine tracks_peek.seqEq fun token => ?_
  split
  · exact tracks_lookahead.seqEq fun second => .pure rfl
  · exact .pure rfl

theorem tracks_rangeStep : TracksExpr g rangeStep := by
  refine tracks_isAt.seqEq fun found => ?_
  split
  · exact tracks_expression.afterToken
  · exact tracks_here.seq fun span => .pure rfl

theorem tracks_loopStart :
    Tracks g (By (LoopStart.mapSpans (Span.move g))) loopStart loopStart := by
  refine tracks_peek.seqEq fun token => ?_
  split
  · exact tracks_declaration.seq fun d => .pure rfl
  · exact tracks_declaration.seq fun d => .pure rfl
  · exact tracks_declaration.seq fun d => .pure rfl
  · exact tracks_mutation.seq fun m => .pure rfl
  · exact tracks_name.seq fun word => .pure rfl
  · exact .failHere

theorem Tracks.located {f : α → β} {p : Parse α} {q : Parse β} (hp : Tracks g (By f) p q) :
    Tracks g (By fun x => ⟨f x.value, x.span.move g⟩) (located p) (located q) :=
  tracks_here.seq fun _ => hp.seq fun _ => tracks_lastStop.seq fun _ => .pure rfl

/-! ## Statements -/

/-- The parse reads the moved statement off the moved source. -/
abbrev TracksStmt (g : Nat → Nat) (p : Parse Stmt) : Prop :=
  Tracks g (By (Stmt.move g)) p p

/-- The parse reads off the moved source what gives the moved statement at a moved span. -/
abbrev TracksForm (g : Nat → Nat) (p : Parse (Span → Stmt)) : Prop :=
  Tracks g (fun form form' => ∀ span, form' (span.move g) = (form span).move g) p p

section Statements

variable {sub : Parse Stmt}

theorem tracks_block (hsub : TracksStmt g sub) :
    Tracks g (By (List.map (Stmt.move g))) (block sub) (block sub) :=
  tracks_symbol.seq fun _ => (tracks_blockGoesOn.many hsub).seq fun _ =>
    tracks_symbol.seq fun _ => .pure rfl

theorem tracks_guarded (hsub : TracksStmt g sub) :
    Tracks g (By (Prod.map (Expr.move g) (List.map (Stmt.move g)))) (guarded sub) (guarded sub) :=
  tracks_keyword.seq fun _ => tracks_condition.seq fun _ => (tracks_block hsub).seq fun _ =>
    .pure rfl

theorem tracks_lastBlock (hsub : TracksStmt g sub) :
    Tracks g (By (Stmt.mapSpansOtherwise (Span.move g))) (lastBlock sub) (lastBlock sub) := by
  refine tracks_isAt.seqEq fun found => ?_
  split
  · refine tracks_advance.seq fun _ => (tracks_block hsub).seq fun body => .pure ?_
    rw [← Stmt.mapSpansList_eq_map]
    rfl
  · exact .pure rfl

theorem mapSpansOtherwise_foldr (f : Span → Span) (others : List (Expr × List Stmt))
    (last : Otherwise) :
    Stmt.mapSpansOtherwise f
        (others.foldr (fun other next => .check other.1 other.2 next) last) =
      (others.map (Prod.map (Expr.mapSpans f) (List.map (Stmt.mapSpans f)))).foldr
        (fun other next => .check other.1 other.2 next) (Stmt.mapSpansOtherwise f last) := by
  induction others with
  | nil => rfl
  | cons other others ih =>
    simp only [List.foldr_cons, List.map_cons, Stmt.mapSpansOtherwise, ih,
      Stmt.mapSpansList_eq_map, Prod.map]

theorem tracks_checkForm (hsub : TracksStmt g sub) : TracksForm g (checkForm sub) := by
  refine (tracks_guarded hsub).seq fun first =>
    (tracks_checkGoesOn.many (tracks_guarded hsub).afterToken).seq fun others =>
    (tracks_lastBlock hsub).seq fun last => .pure fun span => ?_
  simp only [Stmt.move, Stmt.mapSpans, Stmt.mapSpansList_eq_map]
  rw [mapSpansOtherwise_foldr]

theorem tracks_repeatForm (hsub : TracksStmt g sub) : TracksForm g (repeatForm sub) := by
  refine tracks_keyword.seq fun _ => tracks_symbol.seq fun _ => tracks_name.seq fun counter =>
    tracks_keyword.hinting.seq fun _ => tracks_overCollection.seqEq fun _ => ?_
  split
  · refine tracks_name.seq fun collection => tracks_symbol.seq fun _ =>
      (tracks_block hsub).seq fun body => .pure fun span => ?_
    rw [← Stmt.mapSpansList_eq_map]
    rfl
  · refine tracks_expression.seq fun first => tracks_keyword.hinting.seq fun _ =>
      tracks_expression.seq fun last => tracks_rangeStep.seq fun step =>
      tracks_symbol.seq fun _ => (tracks_block hsub).seq fun body => .pure fun span => ?_
    rw [← Stmt.mapSpansList_eq_map]
    rfl

theorem tracks_untilForm (hsub : TracksStmt g sub) : TracksForm g (untilForm sub) := by
  refine tracks_keyword.seq fun _ => tracks_keyword.seq fun _ => tracks_condition.seq fun test =>
    (tracks_block hsub).seq fun body => .pure fun span => ?_
  rw [← Stmt.mapSpansList_eq_map]
  rfl

theorem tracks_forForm (hsub : TracksStmt g sub) : TracksForm g (forForm sub) := by
  refine tracks_keyword.seq fun _ => tracks_symbol.seq fun _ =>
    tracks_loopStart.located.seq fun start => tracks_symbol.seq fun _ =>
    tracks_expression.seq fun test => tracks_symbol.seq fun _ =>
    tracks_mutation.located.seq fun increment => tracks_symbol.seq fun _ =>
    (tracks_block hsub).seq fun body => .pure fun span => ?_
  rw [← Stmt.mapSpansList_eq_map]
  rfl

theorem tracks_functionForm (hsub : TracksStmt g sub) : TracksForm g (functionForm sub) := by
  refine tracks_keyword.seq fun _ => tracks_name.seq fun word => tracks_symbol.seq fun _ =>
    tracks_name.commaList.seq fun params => tracks_symbol.seq fun _ =>
    tracks_annotation.seq fun returns => (tracks_block hsub).seq fun body => .pure fun span => ?_
  rw [← Stmt.mapSpansList_eq_map, map_value_move]
  rfl

theorem tracks_declareForm : TracksForm g declareForm :=
  tracks_declaration.seq fun _ => tracks_symbol.seq fun _ => .pure fun _ => rfl

theorem tracks_storeForm : TracksForm g storeForm :=
  tracks_storing.seq fun _ => .pure fun _ => rfl

theorem tracks_qualifiedForm : TracksForm g qualifiedForm := by
  refine tracks_lookahead.seqEq fun token => ?_
  split
  · exact tracks_declareForm
  · exact tracks_storeForm
  · exact .failHere

theorem tracks_updateForm : TracksForm g updateForm :=
  tracks_mutation.seq fun _ => tracks_symbol.seq fun _ => .pure fun _ => rfl

/-- A form that is made of an expression, if that moves as the expression does. -/
theorem tracks_valueForm {make : Expr → Span → Stmt}
    (hmake : ∀ e span, make (e.move g) (span.move g) = (make e span).move g) :
    TracksForm g (valueForm make) :=
  tracks_advance.seq fun _ => tracks_expression.seq fun value => tracks_symbol.seq fun _ =>
    .pure (hmake value)

theorem tracks_bareForm {make : Span → Stmt}
    (hmake : ∀ span, make (span.move g) = (make span).move g) : TracksForm g (bareForm make) :=
  tracks_advance.seq fun _ => tracks_symbol.seq fun _ => .pure hmake

theorem tracks_rawForm {code : String} : TracksForm g (rawForm code) := by
  refine tracks_advance.seq fun _ => tracks_isAt.seqEq fun found => ?_
  split
  · exact tracks_advance.seq fun _ => .pure fun _ => rfl
  · exact .pure fun _ => rfl

theorem tracks_exprForm : TracksForm g exprForm :=
  tracks_expression.seq fun _ => tracks_symbol.seq fun _ => .pure fun _ => rfl

theorem tracks_statementForm (hsub : TracksStmt g sub) : TracksForm g (statementForm sub) := by
  refine tracks_peek.seqEq fun token => ?_
  split
  · exact tracks_qualifiedForm
  · exact tracks_qualifiedForm
  · exact tracks_declareForm
  · exact tracks_storeForm
  · exact tracks_updateForm
  · exact tracks_checkForm hsub
  · refine tracks_lookahead.seqEq fun second => ?_
    split
    · exact tracks_untilForm hsub
    · exact tracks_repeatForm hsub
  · exact tracks_forForm hsub
  · exact tracks_functionForm hsub
  · exact tracks_valueForm fun _ _ => rfl
  · exact tracks_valueForm fun _ _ => rfl
  · exact tracks_valueForm fun _ _ => rfl
  · exact tracks_valueForm fun _ _ => rfl
  · exact tracks_bareForm fun _ => rfl
  · exact tracks_bareForm fun _ => rfl
  · exact tracks_rawForm
  · exact tracks_exprForm
  · exact tracks_exprForm
  · exact .failHere

theorem tracks_statementUpTo (n : Nat) : TracksStmt g (statementUpTo n) := by
  induction n with
  | zero => exact .exhausted
  | succ n ih =>
    exact tracks_here.seq fun start => (tracks_statementForm ih).bind fun form form' hform =>
      tracks_lastStop.seq fun stop => .pure (hform ⟨start.start, stop⟩)

theorem tracks_statement : TracksStmt g statement :=
  .withBudget tracks_statementUpTo

/-- The program of the moved source is the moved program, and its first fault is the moved fault. -/
theorem tracks_program : Tracks g (By (List.map (Stmt.move g))) program program := by
  have hmore : Tracks g Eq (do pure !(← isAt .endOfFile)) (do pure !(← isAt .endOfFile)) :=
    tracks_isAt.seqEq fun _ => .pure rfl
  exact hmore.many tracks_statement

end Statements

/-! ## Whole sources -/

/-- The value of a parse from the start of a stream. -/
def runOn (p : Parse α) (stream : Stream) : Except Error α := do
  let start ← ParseState.start stream
  p.run start

/-- The second result is the first in the moved source, its value moved by `f`. -/
inductive Carries (g : Nat → Nat) (f : α → β) : Except Error α → Except Error β → Prop
  | ok {a : α} {b : β} : b = f a → Carries g f (.ok a) (.ok b)
  | error {e e' : Error} : e' = e.move g → Carries g f (.error e) (.error e')

theorem carries_start (hg : g 0 = 0) (stream : Stream) :
    Carries g (ParseState.move g) (ParseState.start stream) (ParseState.start (stream.move g)) := by
  unfold ParseState.start
  rw [Stream.next_move]
  generalize stream.next = next
  obtain ⟨outcome, rest⟩ := next
  cases outcome with
  | ok token =>
    refine .ok ?_
    simp only [ParseState.move, hg]
  | error e => exact .error rfl

/-- A parse carries over to the moved stream. Before the first token there is none whose end could
be remembered, so offset zero must stay where it is. -/
theorem Tracks.runOn {f : α → β} {p : Parse α} {q : Parse β} (h : Tracks g (By f) p q)
    (hg : g 0 = 0) (stream : Stream) :
    Carries g f (p.runOn stream) (q.runOn (stream.move g)) := by
  unfold Parse.runOn
  have hstart := carries_start hg stream
  generalize ParseState.start stream = start, ParseState.start (stream.move g) = start' at hstart
  cases hstart with
  | @ok s _ hs =>
    subst hs
    change Carries g f (p.run s) (q.run (s.move g))
    unfold run
    have hs := h s
    generalize p s = r, q (s.move g) = r' at hs
    cases hs with
    | done hab => exact .ok hab
    | failed => exact .error rfl
  | error he => exact .error he

end Parse

end Resin
