import Resin.Tree.Expr

/-!
# Statements

The trees of statements. A program is a list of statements.
-/

namespace Resin

/-- How far a variable reaches and whether it may change. -/
inductive Binding where
  | plain | global | fixed
deriving DecidableEq, Repr, Inhabited

/-- A variable with its declared type, its value or both. -/
structure Declaration where
  binding : Binding
  name : String
  type : Option (Located TypeName)
  value : Option Expr
deriving Repr, Inhabited

/-- A variable that holds a text, given with the span of the literal and its quotes. -/
structure Store where
  binding : Binding
  name : String
  content : String
  quote : Quote
  contentSpan : Span
deriving DecidableEq, Repr, Inhabited

/-- A new value for a variable, or for the place that indices lead to in it. -/
structure Mutation where
  target : String
  indices : List Expr
  value : Expr
deriving Repr, Inhabited

/-- What the header of a counting loop starts with. -/
inductive LoopStart where
  | declare (declaration : Declaration)
  | update (mutation : Mutation)
  | name (name : String)
deriving Repr, Inhabited

mutual

/-- A statement of the language, with the span from its first token to its last. -/
inductive Stmt where
  | declare (declaration : Declaration) (span : Span)
  | store (store : Store) (span : Span)
  | update (mutation : Mutation) (span : Span)
  | check (condition : Expr) (body : List Stmt) (otherwise : Otherwise) (span : Span)
  | repeatRange (counter : String) (first last step : Expr) (body : List Stmt) (span : Span)
  | repeatEach (item : String) (collection : String) (body : List Stmt) (span : Span)
  | repeatUntil (condition : Expr) (body : List Stmt) (span : Span)
  | forLoop (start : Located LoopStart) (condition : Expr) (increment : Located Mutation)
    (body : List Stmt) (span : Span)
  | function (name : String) (params : List String) (returns : Option (Located TypeName))
    (body : List Stmt) (span : Span)
  | give (value : Expr) (span : Span)
  | display (value : Expr) (span : Span)
  | error (value : Expr) (span : Span)
  | panic (value : Expr) (span : Span)
  | skip (span : Span)
  | halt (span : Span)
  | raw (code : String) (span : Span)
  | expr (value : Expr) (span : Span)
deriving Repr, Inhabited

/-- What happens when the condition of a check fails: nothing, another check, or a last block. -/
inductive Otherwise where
  | nothing
  | check (condition : Expr) (body : List Stmt) (next : Otherwise)
  | block (body : List Stmt)
deriving Repr, Inhabited

end

namespace Declaration

/-- The declaration with `f` applied to each of its spans. -/
def mapSpans (f : Span → Span) (d : Declaration) : Declaration :=
  { d with
    type := d.type.map fun t => ⟨t.value, f t.span⟩
    value := d.value.map (Expr.mapSpans f) }

end Declaration

namespace Mutation

/-- The mutation with `f` applied to each of its spans. -/
def mapSpans (f : Span → Span) (m : Mutation) : Mutation :=
  { m with indices := m.indices.map (Expr.mapSpans f), value := m.value.mapSpans f }

end Mutation

namespace LoopStart

/-- The start of a loop with `f` applied to each of its spans. -/
def mapSpans (f : Span → Span) : LoopStart → LoopStart
  | .declare d => .declare (d.mapSpans f)
  | .update m => .update (m.mapSpans f)
  | .name n => .name n

end LoopStart

namespace Stmt

/-- The place where a statement is written. -/
def span : Stmt → Span
  | .declare _ s | .store _ s | .update _ s | .check _ _ _ s | .repeatRange _ _ _ _ _ s
  | .repeatEach _ _ _ s | .repeatUntil _ _ s | .forLoop _ _ _ _ s | .function _ _ _ _ s
  | .give _ s | .display _ s | .error _ s | .panic _ s | .skip s | .halt s | .raw _ s
  | .expr _ s => s

mutual

/-- The statement with `f` applied to each of its spans. -/
def mapSpans (f : Span → Span) : Stmt → Stmt
  | .declare d s => .declare (d.mapSpans f) (f s)
  | .store t s => .store { t with contentSpan := f t.contentSpan } (f s)
  | .update m s => .update (m.mapSpans f) (f s)
  | .check c body other s => .check (c.mapSpans f) (mapSpansList f body)
      (mapSpansOtherwise f other) (f s)
  | .repeatRange x a b d body s =>
    .repeatRange x (a.mapSpans f) (b.mapSpans f) (d.mapSpans f) (mapSpansList f body) (f s)
  | .repeatEach x c body s => .repeatEach x c (mapSpansList f body) (f s)
  | .repeatUntil c body s => .repeatUntil (c.mapSpans f) (mapSpansList f body) (f s)
  | .forLoop start c inc body s =>
    .forLoop ⟨start.value.mapSpans f, f start.span⟩ (c.mapSpans f)
      ⟨inc.value.mapSpans f, f inc.span⟩ (mapSpansList f body) (f s)
  | .function g ps t body s =>
    .function g ps (t.map fun t => ⟨t.value, f t.span⟩) (mapSpansList f body) (f s)
  | .give e s => .give (e.mapSpans f) (f s)
  | .display e s => .display (e.mapSpans f) (f s)
  | .error e s => .error (e.mapSpans f) (f s)
  | .panic e s => .panic (e.mapSpans f) (f s)
  | .skip s => .skip (f s)
  | .halt s => .halt (f s)
  | .raw code s => .raw code (f s)
  | .expr e s => .expr (e.mapSpans f) (f s)

/-- `mapSpans` on each statement of a block. -/
def mapSpansList (f : Span → Span) : List Stmt → List Stmt
  | [] => []
  | stmt :: stmts => stmt.mapSpans f :: mapSpansList f stmts

/-- `mapSpans` on the rest of a check. -/
def mapSpansOtherwise (f : Span → Span) : Otherwise → Otherwise
  | .nothing => .nothing
  | .check c body next =>
    .check (c.mapSpans f) (mapSpansList f body) (mapSpansOtherwise f next)
  | .block body => .block (mapSpansList f body)

end

theorem mapSpansList_eq_map (f : Span → Span) (stmts : List Stmt) :
    mapSpansList f stmts = stmts.map (mapSpans f) := by
  induction stmts with
  | nil => rfl
  | cons s ss ih => simp [mapSpansList, ih]

@[simp] theorem span_mapSpans (f : Span → Span) (s : Stmt) : (s.mapSpans f).span = f s.span := by
  cases s <;> simp [mapSpans, span]

end Stmt

end Resin
