import Resin.Position
import Resin.Tree.Operator

/-!
# Expressions

The trees of expressions. `Expr.mapSpans` changes every span of a tree, so that trees can be
compared up to their place in a source.
-/

namespace Resin

/-- An expression of the language. Every node holds the span of the text it is written as, with
the brackets around it, if any. -/
inductive Expr where
  | number (value : Number) (span : Span)
  | text (content : String) (quote : Quote) (span : Span)
  | bool (value : Bool) (span : Span)
  | null (span : Span)
  | undefined (span : Span)
  | input (span : Span)
  | name (name : String) (span : Span)
  | index (target index : Expr) (span : Span)
  | call (callee : String) (args : List Expr) (span : Span)
  | array (elements : List Expr) (span : Span)
  | lambda (params : List String) (body : Expr) (span : Span)
  | method (type : Located TypeName) (target : String) (method : Located String)
    (args : List Expr) (span : Span)
  | binary (op : BinaryOp) (left right : Expr) (span : Span)
  | signed (sign : Sign) (operand : Expr) (span : Span)
deriving Repr, Inhabited

namespace Expr

/-- The place where an expression is written. -/
def span : Expr → Span
  | .number _ s | .text _ _ s | .bool _ s | .null s | .undefined s | .input s | .name _ s
  | .index _ _ s | .call _ _ s | .array _ s | .lambda _ _ s | .method _ _ _ _ s
  | .binary _ _ _ s | .signed _ _ s => s

/-- The same expression at another place, its parts unmoved. -/
def withSpan (s : Span) : Expr → Expr
  | .number v _ => .number v s
  | .text c q _ => .text c q s
  | .bool v _ => .bool v s
  | .null _ => .null s
  | .undefined _ => .undefined s
  | .input _ => .input s
  | .name n _ => .name n s
  | .index t i _ => .index t i s
  | .call f args _ => .call f args s
  | .array es _ => .array es s
  | .lambda ps b _ => .lambda ps b s
  | .method t x m args _ => .method t x m args s
  | .binary op l r _ => .binary op l r s
  | .signed sign e _ => .signed sign e s

@[simp] theorem span_withSpan (s : Span) (e : Expr) : (e.withSpan s).span = s := by
  cases e <;> rfl

mutual

/-- The tree with `f` applied to each of its spans. -/
def mapSpans (f : Span → Span) : Expr → Expr
  | .number v s => .number v (f s)
  | .text c q s => .text c q (f s)
  | .bool v s => .bool v (f s)
  | .null s => .null (f s)
  | .undefined s => .undefined (f s)
  | .input s => .input (f s)
  | .name n s => .name n (f s)
  | .index t i s => .index (t.mapSpans f) (i.mapSpans f) (f s)
  | .call g args s => .call g (mapSpansList f args) (f s)
  | .array es s => .array (mapSpansList f es) (f s)
  | .lambda ps b s => .lambda ps (b.mapSpans f) (f s)
  | .method t x m args s =>
    .method ⟨t.value, f t.span⟩ x ⟨m.value, f m.span⟩ (mapSpansList f args) (f s)
  | .binary op l r s => .binary op (l.mapSpans f) (r.mapSpans f) (f s)
  | .signed sign e s => .signed sign (e.mapSpans f) (f s)

/-- `mapSpans` on each expression of a list. -/
def mapSpansList (f : Span → Span) : List Expr → List Expr
  | [] => []
  | e :: es => e.mapSpans f :: mapSpansList f es

end

theorem mapSpansList_eq_map (f : Span → Span) (es : List Expr) :
    mapSpansList f es = es.map (mapSpans f) := by
  induction es with
  | nil => rfl
  | cons e es ih => simp [mapSpansList, ih]

@[simp] theorem span_mapSpans (f : Span → Span) (e : Expr) : (e.mapSpans f).span = f e.span := by
  cases e <;> simp [mapSpans, span]

end Expr

end Resin
