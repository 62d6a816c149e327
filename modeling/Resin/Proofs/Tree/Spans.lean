import Resin.Proofs.Tree.Nodes

/-!
# The parts of a tree that have a span

Statements and expressions are not all that has a place in a source. A declared type, the type and
the name of a method, the literal of a stored text and the two clauses of a counting loop that are
no expressions have spans of their own. `Node` takes them together, `Node.children` gives the parts
that a part is made of, in the order of the source, and `InTree` all parts of a program.

No span is left out: a change of the spans that leaves those of the parts alone leaves the program
alone (`mapSpans_eq_of_inTree`).
-/

namespace Resin

/-- A part of a tree that has a span. -/
inductive Node where
  | stmt (stmt : Stmt)
  | expr (expr : Expr)
  | type (type : Located TypeName)
  | method (name : Located String)
  | text (store : Store)
  | start (start : Located LoopStart)
  | increment (increment : Located Mutation)

/-- The parts of a declaration: its type and its value. -/
def Declaration.parts (d : Declaration) : List Node :=
  d.type.toList.map .type ++ d.exprs.map .expr

/-- The parts of what a loop starts with. -/
def LoopStart.parts : LoopStart → List Node
  | .declare d => d.parts
  | .update m => m.exprs.map .expr
  | .name _ => []

/-- The parts of the rest of a check. -/
def Otherwise.parts : Otherwise → List Node
  | .nothing => []
  | .check c body next => .expr c :: body.map .stmt ++ next.parts
  | .block body => body.map .stmt

/-- The parts of an expression. -/
def Expr.parts : Expr → List Node
  | .index t i _ => [.expr t, .expr i]
  | .call _ args _ | .array args _ => args.map .expr
  | .lambda _ b _ => [.expr b]
  | .method t _ m args _ => .type t :: .method m :: args.map .expr
  | .binary _ l r _ => [.expr l, .expr r]
  | .signed _ e _ => [.expr e]
  | .number _ _ | .text _ _ _ | .bool _ _ | .null _ | .undefined _ | .input _ | .name _ _ => []

/-- The parts of a statement. -/
def Stmt.parts : Stmt → List Node
  | .declare d _ => d.parts
  | .store s _ => [.text s]
  | .update m _ => m.exprs.map .expr
  | .check c body other _ => .expr c :: body.map .stmt ++ other.parts
  | .repeatRange _ a b d body _ => .expr a :: .expr b :: .expr d :: body.map .stmt
  | .repeatEach _ _ body _ => body.map .stmt
  | .repeatUntil c body _ => .expr c :: body.map .stmt
  | .forLoop start c inc body _ => .start start :: .expr c :: .increment inc :: body.map .stmt
  | .function _ _ returns body _ => returns.toList.map .type ++ body.map .stmt
  | .give e _ | .display e _ | .error e _ | .panic e _ | .expr e _ => [.expr e]
  | .skip _ | .halt _ | .raw _ _ => []

namespace Node

/-- The place where a part is written. -/
def span : Node → Span
  | .stmt s => s.span
  | .expr e => e.span
  | .type t => t.span
  | .method m => m.span
  | .text s => s.contentSpan
  | .start s => s.span
  | .increment m => m.span

/-- The parts that a part is made of, in the order of the source. -/
def children : Node → List Node
  | .stmt s => s.parts
  | .expr e => e.parts
  | .start s => s.value.parts
  | .increment m => m.value.exprs.map .expr
  | .type _ | .method _ | .text _ => []

end Node

/-- The parts of a program that have a span, at every depth. -/
inductive InTree (p : List Stmt) : Node → Prop
  | root {stmt : Stmt} : stmt ∈ p → InTree p (.stmt stmt)
  | child {n m : Node} : InTree p n → m ∈ n.children → InTree p m

theorem Expr.parts_withSpan (s : Span) (e : Expr) : (e.withSpan s).parts = e.parts := by
  cases e <;> rfl

/-! ## All spans -/

/-- With a part, `P` holds of all parts inside it, and `f` and `g` agree on their spans. -/
structure AgreeOn (P : Node → Prop) (f g : Span → Span) : Prop where
  closed : ∀ n, P n → ∀ m ∈ n.children, P m
  span : ∀ n, P n → f n.span = g n.span

section Congruence

variable {f g : Span → Span} {P : Node → Prop}

namespace Expr

mutual

theorem mapSpans_congr (hfg : AgreeOn P f g) : ∀ e : Expr, P (.expr e) → e.mapSpans f = e.mapSpans g
  | .number _ s, h | .text _ _ s, h | .bool _ s, h | .null s, h | .undefined s, h | .input s, h
  | .name _ s, h => by
    rw [mapSpans, mapSpans, show f s = g s from hfg.span _ h]
  | .index t i s, h => by
    obtain ⟨ht, hi⟩ : P (.expr t) ∧ P (.expr i) := by
      simpa [Node.children, parts] using hfg.closed _ h
    rw [mapSpans, mapSpans, mapSpans_congr hfg t ht, mapSpans_congr hfg i hi,
      show f s = g s from hfg.span _ h]
  | .call _ args s, h | .array args s, h => by
    have hargs : ∀ e ∈ args, P (.expr e) := by simpa [Node.children, parts] using hfg.closed _ h
    rw [mapSpans, mapSpans, mapSpansList_congr hfg args hargs, show f s = g s from hfg.span _ h]
  | .lambda _ b s, h => by
    have hb : P (.expr b) := by simpa [Node.children, parts] using hfg.closed _ h
    rw [mapSpans, mapSpans, mapSpans_congr hfg b hb, show f s = g s from hfg.span _ h]
  | .method t _ m args s, h => by
    obtain ⟨ht, hm, hargs⟩ : P (.type t) ∧ P (.method m) ∧ ∀ e ∈ args, P (.expr e) := by
      simpa [Node.children, parts] using hfg.closed _ h
    rw [mapSpans, mapSpans, mapSpansList_congr hfg args hargs, show f s = g s from hfg.span _ h,
      show f t.span = g t.span from hfg.span _ ht, show f m.span = g m.span from hfg.span _ hm]
  | .binary _ l r s, h => by
    obtain ⟨hl, hr⟩ : P (.expr l) ∧ P (.expr r) := by
      simpa [Node.children, parts] using hfg.closed _ h
    rw [mapSpans, mapSpans, mapSpans_congr hfg l hl, mapSpans_congr hfg r hr,
      show f s = g s from hfg.span _ h]
  | .signed _ e s, h => by
    have he : P (.expr e) := by simpa [Node.children, parts] using hfg.closed _ h
    rw [mapSpans, mapSpans, mapSpans_congr hfg e he, show f s = g s from hfg.span _ h]

theorem mapSpansList_congr (hfg : AgreeOn P f g) : ∀ es : List Expr, (∀ e ∈ es, P (.expr e)) →
    mapSpansList f es = mapSpansList g es
  | [], _ => rfl
  | e :: es, h => by
    rw [List.forall_mem_cons] at h
    rw [mapSpansList, mapSpansList, mapSpans_congr hfg e h.1, mapSpansList_congr hfg es h.2]

end

theorem map_mapSpans_congr (hfg : AgreeOn P f g) (es : List Expr) (h : ∀ e ∈ es, P (.expr e)) :
    es.map (mapSpans f) = es.map (mapSpans g) := by
  rw [← mapSpansList_eq_map, ← mapSpansList_eq_map, mapSpansList_congr hfg es h]

end Expr

theorem mapType_congr (hfg : AgreeOn P f g) (type : Option (Located TypeName))
    (h : ∀ t ∈ type.toList, P (.type t)) :
    (type.map fun t => (⟨t.value, f t.span⟩ : Located TypeName)) =
      type.map fun t => ⟨t.value, g t.span⟩ := by
  cases type with
  | none => rfl
  | some t =>
    have hspan : f t.span = g t.span := hfg.span _ (h t (List.mem_singleton_self t))
    simp only [Option.map_some, hspan]

theorem Declaration.mapSpans_congr (hfg : AgreeOn P f g) (d : Declaration)
    (h : ∀ m ∈ d.parts, P m) :
    d.mapSpans f = d.mapSpans g := by
  obtain ⟨binding, name, type, value⟩ := d
  simp only [parts, exprs, List.forall_mem_append, List.forall_mem_map] at h
  rw [mapSpans, mapSpans, mapType_congr hfg type h.1]
  cases value with
  | none => rfl
  | some e =>
    have he := e.mapSpans_congr hfg (h.2 e (List.mem_singleton_self e))
    simp only [Option.map_some, he]

theorem Mutation.mapSpans_congr (hfg : AgreeOn P f g) (m : Mutation)
    (h : ∀ e ∈ m.exprs, P (.expr e)) :
    m.mapSpans f = m.mapSpans g := by
  rw [exprs, List.forall_mem_append, List.forall_mem_singleton] at h
  rw [mapSpans, mapSpans, Expr.map_mapSpans_congr hfg m.indices h.1,
    m.value.mapSpans_congr hfg h.2]

theorem LoopStart.mapSpans_congr (hfg : AgreeOn P f g) (start : LoopStart)
    (h : ∀ m ∈ start.parts, P m) :
    start.mapSpans f = start.mapSpans g := by
  cases start with
  | declare d => rw [mapSpans, mapSpans, d.mapSpans_congr hfg h]
  | update m =>
    simp only [parts, List.forall_mem_map] at h
    rw [mapSpans, mapSpans, m.mapSpans_congr hfg h]
  | name w => rfl

namespace Stmt

mutual

theorem mapSpans_congr (hfg : AgreeOn P f g) : ∀ stmt : Stmt, P (.stmt stmt) →
    stmt.mapSpans f = stmt.mapSpans g
  | .declare d s, h => by
    rw [mapSpans, mapSpans, d.mapSpans_congr hfg (hfg.closed _ h),
      show f s = g s from hfg.span _ h]
  | .store t s, h => by
    have ht : P (.text t) := by simpa [Node.children, parts] using hfg.closed _ h
    rw [mapSpans, mapSpans, show f s = g s from hfg.span _ h,
      show f t.contentSpan = g t.contentSpan from hfg.span _ ht]
  | .update m s, h => by
    have hm : ∀ e ∈ m.exprs, P (.expr e) := by simpa [Node.children, parts] using hfg.closed _ h
    rw [mapSpans, mapSpans, m.mapSpans_congr hfg hm, show f s = g s from hfg.span _ h]
  | .check c body other s, h => by
    have hin := hfg.closed _ h
    simp only [Node.children, parts, List.cons_append, List.forall_mem_cons,
      List.forall_mem_append, List.forall_mem_map] at hin
    rw [mapSpans, mapSpans, c.mapSpans_congr hfg hin.1, mapSpansList_congr hfg body hin.2.1,
      mapSpansOtherwise_congr hfg other hin.2.2, show f s = g s from hfg.span _ h]
  | .repeatRange _ a b d body s, h => by
    have hin := hfg.closed _ h
    simp only [Node.children, parts, List.forall_mem_cons, List.forall_mem_map] at hin
    rw [mapSpans, mapSpans, a.mapSpans_congr hfg hin.1,
      b.mapSpans_congr hfg hin.2.1, d.mapSpans_congr hfg hin.2.2.1,
      mapSpansList_congr hfg body hin.2.2.2, show f s = g s from hfg.span _ h]
  | .repeatEach _ _ body s, h => by
    have hin : ∀ x ∈ body, P (.stmt x) := by simpa [Node.children, parts] using hfg.closed _ h
    rw [mapSpans, mapSpans, mapSpansList_congr hfg body hin, show f s = g s from hfg.span _ h]
  | .repeatUntil c body s, h => by
    have hin := hfg.closed _ h
    simp only [Node.children, parts, List.forall_mem_cons, List.forall_mem_map] at hin
    rw [mapSpans, mapSpans, c.mapSpans_congr hfg hin.1, mapSpansList_congr hfg body hin.2,
      show f s = g s from hfg.span _ h]
  | .forLoop start c inc body s, h => by
    have hin := hfg.closed _ h
    simp only [Node.children, parts, List.forall_mem_cons, List.forall_mem_map] at hin
    obtain ⟨hstart, hc, hinc, hbody⟩ := hin
    have hexprs : ∀ e ∈ inc.value.exprs, P (.expr e) := by
      simpa [Node.children] using hfg.closed _ hinc
    rw [mapSpans, mapSpans, start.value.mapSpans_congr hfg (hfg.closed _ hstart),
      c.mapSpans_congr hfg hc, inc.value.mapSpans_congr hfg hexprs,
      mapSpansList_congr hfg body hbody, show f s = g s from hfg.span _ h,
      show f start.span = g start.span from hfg.span _ hstart,
      show f inc.span = g inc.span from hfg.span _ hinc]
  | .function _ _ returns body s, h => by
    have hin := hfg.closed _ h
    simp only [Node.children, parts, List.forall_mem_append, List.forall_mem_map] at hin
    rw [mapSpans, mapSpans, mapType_congr hfg returns hin.1, mapSpansList_congr hfg body hin.2,
      show f s = g s from hfg.span _ h]
  | .give e s, h | .display e s, h | .error e s, h | .panic e s, h | .expr e s, h => by
    have he : P (.expr e) := by simpa [Node.children, parts] using hfg.closed _ h
    rw [mapSpans, mapSpans, e.mapSpans_congr hfg he, show f s = g s from hfg.span _ h]
  | .skip s, h | .halt s, h | .raw _ s, h => by
    rw [mapSpans, mapSpans, show f s = g s from hfg.span _ h]

theorem mapSpansList_congr (hfg : AgreeOn P f g) : ∀ stmts : List Stmt, (∀ s ∈ stmts, P (.stmt s)) →
    mapSpansList f stmts = mapSpansList g stmts
  | [], _ => rfl
  | s :: stmts, h => by
    rw [List.forall_mem_cons] at h
    rw [mapSpansList, mapSpansList, mapSpans_congr hfg s h.1, mapSpansList_congr hfg stmts h.2]

theorem mapSpansOtherwise_congr (hfg : AgreeOn P f g) : ∀ other : Otherwise,
    (∀ m ∈ other.parts, P m) →
    mapSpansOtherwise f other = mapSpansOtherwise g other
  | .nothing, _ => rfl
  | .check c body next, h => by
    simp only [Otherwise.parts, List.cons_append, List.forall_mem_cons, List.forall_mem_append,
      List.forall_mem_map] at h
    rw [mapSpansOtherwise, mapSpansOtherwise, c.mapSpans_congr hfg h.1,
      mapSpansList_congr hfg body h.2.1, mapSpansOtherwise_congr hfg next h.2.2]
  | .block body, h => by
    simp only [Otherwise.parts, List.forall_mem_map] at h
    rw [mapSpansOtherwise, mapSpansOtherwise, mapSpansList_congr hfg body h]

end

end Stmt

end Congruence

/-- The parts of a program have all spans of it: where two changes of the spans agree on them, they
agree on the program. -/
theorem mapSpans_eq_of_inTree {p : List Stmt} {f g : Span → Span}
    (h : ∀ n, InTree p n → f n.span = g n.span) :
    p.map (Stmt.mapSpans f) = p.map (Stmt.mapSpans g) := by
  rw [← Stmt.mapSpansList_eq_map, ← Stmt.mapSpansList_eq_map]
  exact Stmt.mapSpansList_congr ⟨fun n hn m hm => .child hn hm, h⟩ p fun s hs => .root hs

end Resin
