import Resin.Tree.Stmt

/-!
# The nodes of a tree

All expressions and all statements of a tree, at every depth. A condition that every statement or
every expression of a program has to meet is stated over these lists.
-/

namespace Resin

namespace Expr

mutual

/-- The expressions inside an expression, at every depth. -/
def inner : Expr → List Expr
  | .index t i _ => t :: inner t ++ i :: inner i
  | .call _ args _ | .array args _ | .method _ _ _ args _ => nodesList args
  | .lambda _ b _ => b :: inner b
  | .binary _ l r _ => l :: inner l ++ r :: inner r
  | .signed _ e _ => e :: inner e
  | .number _ _ | .text _ _ _ | .bool _ _ | .null _ | .undefined _ | .input _ | .name _ _ => []

/-- The expressions of a list and those inside them. -/
def nodesList : List Expr → List Expr
  | [] => []
  | e :: es => e :: inner e ++ nodesList es

end

/-- An expression and those inside it. -/
def nodes (e : Expr) : List Expr :=
  e :: e.inner

theorem inner_index (t i : Expr) (s : Span) : inner (.index t i s) = t.nodes ++ i.nodes := rfl

theorem inner_lambda (ps : List String) (b : Expr) (s : Span) :
    inner (.lambda ps b s) = b.nodes := rfl

theorem inner_binary (op : BinaryOp) (l r : Expr) (s : Span) :
    inner (.binary op l r s) = l.nodes ++ r.nodes := rfl

theorem inner_signed (sign : Sign) (e : Expr) (s : Span) : inner (.signed sign e s) = e.nodes := rfl

theorem nodesList_cons (e : Expr) (es : List Expr) :
    nodesList (e :: es) = e.nodes ++ nodesList es := rfl

theorem nodesList_singleton (e : Expr) : nodesList [e] = e.nodes :=
  List.append_nil _

theorem mem_nodesList {e : Expr} {es : List Expr} (h : e ∈ es) : e ∈ nodesList es := by
  induction es with
  | nil => cases h
  | cons e' es ih =>
    rcases List.mem_cons.1 h with rfl | h
    · exact List.mem_append_left _ (List.mem_cons_self ..)
    · exact List.mem_append_right _ (ih h)

theorem nodesList_append (es es' : List Expr) :
    nodesList (es ++ es') = nodesList es ++ nodesList es' := by
  induction es with
  | nil => rfl
  | cons e es ih => simp [nodesList_cons, ih]

theorem forall_mem_nodes {P : Expr → Prop} {e : Expr} :
    (∀ x ∈ e.nodes, P x) ↔ P e ∧ ∀ x ∈ e.inner, P x :=
  List.forall_mem_cons

/-- The names that an expression writes itself, without those in the expressions inside it. -/
def names : Expr → List String
  | .name w _ | .call w _ _ | .method _ w _ _ _ => [w]
  | .lambda params _ _ => params
  | _ => []

theorem names_withSpan (s : Span) (e : Expr) : (e.withSpan s).names = e.names := by
  cases e <;> rfl

theorem inner_withSpan (s : Span) (e : Expr) : (e.withSpan s).inner = e.inner := by
  cases e <;> rfl

end Expr

/-- The value of a declaration, if it has one. -/
def Declaration.exprs (d : Declaration) : List Expr :=
  d.value.toList

/-- The indices and the value of a mutation. -/
def Mutation.exprs (m : Mutation) : List Expr :=
  m.indices ++ [m.value]

/-- The expressions in the start of a loop. -/
def LoopStart.exprs : LoopStart → List Expr
  | .declare d => d.exprs
  | .update m => m.exprs
  | .name _ => []

/-- The name that the start of a loop writes. -/
def LoopStart.names : LoopStart → List String
  | .declare d => [d.name]
  | .update m => [m.target]
  | .name w => [w]

/-- The conditions in the rest of a check. -/
def Otherwise.conditions : Otherwise → List Expr
  | .nothing | .block _ => []
  | .check c _ next => c :: next.conditions

namespace Stmt

mutual

/-- The statements inside a statement, at every depth. -/
def inner : Stmt → List Stmt
  | .check _ body other _ => nodesList body ++ nodesOtherwise other
  | .repeatRange _ _ _ _ body _ | .repeatEach _ _ body _ | .repeatUntil _ body _
  | .forLoop _ _ _ body _ | .function _ _ _ body _ => nodesList body
  | .declare _ _ | .store _ _ | .update _ _ | .give _ _ | .display _ _ | .error _ _ | .panic _ _
  | .skip _ | .halt _ | .raw _ _ | .expr _ _ => []

/-- The statements of a block and those inside them. -/
def nodesList : List Stmt → List Stmt
  | [] => []
  | stmt :: stmts => stmt :: inner stmt ++ nodesList stmts

/-- The statements in the blocks of the rest of a check and those inside them. -/
def nodesOtherwise : Otherwise → List Stmt
  | .nothing => []
  | .check _ body next => nodesList body ++ nodesOtherwise next
  | .block body => nodesList body

end

/-- The expressions that a statement is made of, without those in the statements inside it. -/
def exprs : Stmt → List Expr
  | .declare d _ => d.exprs
  | .update m _ => m.exprs
  | .check c _ other _ => c :: other.conditions
  | .repeatRange _ a b d _ _ => [a, b, d]
  | .repeatUntil c _ _ => [c]
  | .forLoop start c inc _ _ => start.value.exprs ++ c :: inc.value.exprs
  | .give e _ | .display e _ | .error e _ | .panic e _ | .expr e _ => [e]
  | .store _ _ | .repeatEach _ _ _ _ | .function _ _ _ _ _ | .skip _ | .halt _ | .raw _ _ => []

/-- The names that a statement writes itself, without those in its expressions and in the
statements inside it. -/
def names : Stmt → List String
  | .declare d _ => [d.name]
  | .store s _ => [s.name]
  | .update m _ => [m.target]
  | .repeatRange counter _ _ _ _ _ => [counter]
  | .repeatEach item collection _ _ => [item, collection]
  | .forLoop start _ increment _ _ => start.value.names ++ [increment.value.target]
  | .function f params _ _ _ => f :: params
  | _ => []

/-- The declaration that a statement makes, by itself or in the header of a loop. -/
def declaration? : Stmt → Option Declaration
  | .declare d _ => some d
  | .forLoop ⟨.declare d, _⟩ _ _ _ _ => some d
  | _ => none

theorem declaration?_forLoop {start : Located LoopStart} {c : Expr} {inc : Located Mutation}
    {body : List Stmt} {span : Span} {d : Declaration} :
    (Stmt.forLoop start c inc body span).declaration? = some d ↔ start.value = .declare d := by
  obtain ⟨value, a⟩ := start
  cases value <;> simp [declaration?]

end Stmt

end Resin
