import Resin.Proofs.Grammar.StmtSound
import Resin.Proofs.Parse.Unrolling

/-!
# Every parse comes to an end

Each parse of the grammar is followed along its definition: it passes a token before it calls
itself, and each round of a loop passes one. So all of them end within their budgets, from every
state (`AllResolve`).
-/

namespace Resin.Parse

open ParseState

variable {α : Type} {n : Nat} {s t : ParseState}

/-! ## Expressions -/

section Expressions

variable {sub sub' : Parse Expr}

theorem alike_arguments (hsub : Alike 1 n sub sub') :
    Alike 1 (n + 1) (arguments sub) (arguments sub') :=
  alike_symbol.front fun _ => (alike_commaList hsub).seq fun _ => alike_symbol.seq fun _ => .pure

theorem alike_nameForm (hsub : Alike 1 n sub sub') :
    Alike 1 (n + 1) (nameForm sub) (nameForm sub') := by
  refine alike_name.front fun word => .atCurrent fun s hs => ?_
  generalize hval : s.current.value = value
  split
  · exact .over (by simp [hval]) hs fun _ => hsub.seq fun _ => .pure
  · exact .over (by simp [hval]) hs fun _ => hsub.seq fun _ => alike_symbol.seq fun _ =>
      alike_lastStop.seq fun _ => .pure
  · exact Alike.pure s hs

theorem alike_lambdaHeader : Alike 1 n lambdaHeader lambdaHeader :=
  alike_symbol.gain fun _ => (alike_commaList alike_name).seq fun _ => alike_symbol.seq fun _ =>
    alike_symbol.seq fun _ => .pure

theorem alike_bracketForm (hsub : Alike 1 n sub sub') :
    Alike 1 (n + 1) (bracketForm sub) (bracketForm sub') :=
  alike_here.seq fun _ => alike_lambdaHeader.attempt (fun _ => hsub.seq fun _ => .pure) <|
    alike_symbol.front fun _ => hsub.seq fun _ => alike_symbol.seq fun _ =>
    alike_lastStop.seq fun _ => .pure

theorem alike_arrayForm (hsub : Alike 1 n sub sub') :
    Alike 1 (n + 1) (arrayForm sub) (arrayForm sub') :=
  alike_symbol.front fun _ => (alike_commaList hsub).seq fun _ => alike_symbol.seq fun _ =>
    alike_lastStop.seq fun _ => .pure

theorem alike_callForm (hsub : Alike 1 n sub sub') :
    Alike 1 (n + 1) (callForm sub) (callForm sub') :=
  alike_keyword.front fun _ => alike_name.seq fun _ => (alike_arguments hsub).behind.seq fun _ =>
    alike_lastStop.seq fun _ => .pure

theorem alike_targetType : Alike 1 (n + 1) targetType targetType := by
  refine .anyToken (.expectedTargetType .endOfFile) (by simp) (fun _ => ⟨rfl, rfl⟩) fun token => ?_
  split
  · exact .pure
  · exact .fail (by simp)

theorem alike_methodForm (hsub : Alike 1 n sub sub') :
    Alike 1 (n + 1) (methodForm sub) (methodForm sub') :=
  alike_keyword.front fun _ => alike_symbol.hinting.seq fun _ =>
    alike_targetType.behind.seq fun _ => alike_name.seq fun _ =>
    alike_symbol.hinting.seq fun _ => alike_name.seq fun _ =>
    (alike_arguments hsub).behind.seq fun _ => alike_lastStop.seq fun _ => .pure

theorem alike_atom (hsub : Alike 1 n sub sub') : Alike 1 (n + 1) (atom sub) (atom sub') := by
  refine .anyToken (.expectedExpression .endOfFile) (by simp) (fun _ => ⟨rfl, rfl⟩) fun token => ?_
  split
  -- only an open parenthesis is followed by more
  case h_9 =>
    exact hsub.seq fun _ => alike_symbol.seq fun _ => alike_lastStop.seq fun _ => .pure
  case h_10 => exact .fail (by simp)
  all_goals exact .pure

/-- The operands in an expression, all behind its first token. -/
theorem alike_primary (hsub : Alike 1 n sub sub') :
    Alike 1 (n + 1) (primary sub) (primary sub') := by
  refine alike_peek.seq fun token => ?_
  split
  · exact alike_nameForm hsub
  · exact alike_bracketForm hsub
  · exact alike_arrayForm hsub
  · exact alike_callForm hsub
  · exact alike_methodForm hsub
  · exact alike_atom hsub

/-- A sign and then an operand again, or an expression without a sign. -/
def operandStep (sub : Parse Expr) (operand : Unit → Parse Expr) : Unit → Parse Expr := fun _ => do
  match Sign.ofToken? (← peek) with
  | none => primary sub
  | some sign =>
    let token ← advance
    let inner ← operand ()
    pure (.signed sign inner ⟨token.span.start, inner.span.stop⟩)

/-- An operator and its right side, and then the same with the operation as left side. -/
def climbStep (sub : Nat → Parse Expr) (level : Nat) (climb : Expr → Parse Expr) :
    Expr → Parse Expr := fun left => do
  match BinaryOp.ofToken? (← peek) with
  | none => pure left
  | some op =>
    if level ≤ op.level then
      let _ ← advance
      let right ← sub (op.level + 1)
      climb (.binary op left right ⟨left.span.start, right.span.stop⟩)
    else pure left

/-- An expression with any number of signs in front of it. -/
def operand (sub : Parse Expr) : Parse Expr :=
  withBudget (operandUpTo sub)

/-- Operations with operators of `level` or higher whose left operand has been read. -/
def climb (sub : Nat → Parse Expr) (level : Nat) (left : Expr) : Parse Expr :=
  withBudget fun n => climbUpTo sub level n left

/-- An operand and the operations that it is the left side of. -/
def expressionStep (sub : Nat → Parse Expr) : Nat → Parse Expr := fun level => do
  let left ← operand (sub 1)
  climb sub level left

/-- An expression with operators of `level` or higher. -/
def expressionOf (level : Nat) : Parse Expr :=
  withBudget fun n => expressionUpTo n level

theorem descends_operandStep (hsub : Alike 1 n sub sub') :
    Descends 1 (n + 1) (operandStep sub) (operandStep sub') := by
  intro m hm p q hpq _
  refine .atCurrent fun s hs => ?_
  -- the operand is called again only behind a sign, where there is one token less
  cases hsign : Sign.ofToken? s.current.value with
  | none => exact alike_primary hsub s (by omega)
  | some sign =>
    have hne : s.current.value ≠ .endOfFile := by
      intro heq
      rw [heq] at hsign
      cases hsign
    exact .pass hne hs fun _ => (hpq ()).seq fun _ => .pure

theorem alike_operand (hsub : Alike 1 n sub sub') :
    Alike 1 (n + 1) (operand sub) (operand sub') :=
  (descends_operandStep hsub).withBudget (f := fun n _ => operandUpTo sub n)
    (g := fun n _ => operandUpTo sub' n) (fun _ => rfl) (fun _ => rfl) ()

theorem descends_climbStep {sub sub' : Nat → Parse Expr}
    (hsub : ∀ level, Alike 1 n (sub level) (sub' level)) (level : Nat) :
    Descends 0 (n + 1) (climbStep sub level) (climbStep sub' level) := by
  intro m hm p q hpq left
  refine .atCurrent fun s hs => ?_
  cases hop : BinaryOp.ofToken? s.current.value with
  | none => exact Alike.pure s hs
  | some op =>
    dsimp only
    split
    · have hne : s.current.value ≠ .endOfFile := by
        intro heq
        rw [heq] at hop
        cases hop
      refine AlikeAt.mono (.pass hne hs fun _ => ?_) (Nat.zero_le 1)
      exact ((hsub _).mono (Nat.le_refl 1) (by omega)).seq fun right => hpq _
    · exact Alike.pure s hs

theorem alike_climb {sub sub' : Nat → Parse Expr}
    (hsub : ∀ level, Alike 1 n (sub level) (sub' level)) (level : Nat) (left : Expr) :
    Alike 0 (n + 1) (climb sub level left) (climb sub' level left) :=
  (descends_climbStep hsub level).withBudget (f := climbUpTo sub level)
    (g := climbUpTo sub' level) (fun _ => rfl) (fun _ => rfl) left

/-- The expressions in an expression stand behind its first token. -/
theorem descends_expressionStep : Descends 1 n expressionStep expressionStep :=
  fun _ _ _ _ hsub level =>
    (alike_operand (hsub 1)).gain fun left => alike_climb hsub level left

theorem alike_expressionOf (level : Nat) : Alike 1 n (expressionOf level) (expressionOf level) :=
  descends_expressionStep.withBudget (f := expressionUpTo) (g := expressionUpTo) (fun _ => rfl)
    (fun _ => rfl) level

theorem alike_expression : Alike 1 n expression expression :=
  alike_expressionOf 1

theorem resolves_expression : Resolves expressionStep expressionOf :=
  Descends.resolves (f := expressionUpTo) (fun _ => descends_expressionStep) fun _ => rfl

theorem resolves_operand : Resolves (operandStep expression) fun _ => operand expression :=
  Descends.resolves (f := fun n _ => operandUpTo expression n)
    (fun n => (descends_operandStep alike_expression).mono (Nat.le_succ n)) fun _ => rfl

theorem resolves_climb (level : Nat) :
    Resolves (climbStep expressionOf level) (climb expressionOf level) :=
  Descends.resolves (f := climbUpTo expressionOf level)
    (fun n => (descends_climbStep alike_expressionOf level).mono (Nat.le_succ n)) fun _ => rfl

end Expressions

/-! ## Parts of statements -/

theorem alike_binding : Alike 0 n binding binding := by
  refine .atCurrent fun s hs => ?_
  generalize hval : s.current.value = value
  split
  · exact .over (by simp [hval]) hs fun _ => .pure
  · exact .over (by simp [hval]) hs fun _ => .pure
  · exact Alike.pure s hs

theorem alike_annotation : Alike 0 n annotation annotation := by
  refine .ifAt (fun s hs hval => ?_) .pure
  refine .over (by simp [hval]) hs fun _ => .behind ?_
  refine .anyToken (.expectedType .endOfFile) (by simp) (fun _ => ⟨rfl, rfl⟩) fun token => ?_
  split
  · exact .pure
  · exact .fail (by simp)

theorem alike_optionalValue : Alike 0 n optionalValue optionalValue :=
  .ifAt (fun _ hs hval => .over (by simp [hval]) hs fun _ => alike_expression.seq fun _ => .pure)
    .pure

theorem alike_declaration : Alike 1 n declaration declaration := by
  refine alike_binding.seq fun _ => alike_keyword.gain fun _ => alike_name.seq fun _ =>
    alike_annotation.seq fun _ => alike_optionalValue.seq fun _ => alike_lastStop.seq fun _ => ?_
  split
  · exact .fail (by simp)
  · split
    · exact .fail (by simp)
    · exact .pure

theorem alike_storing : Alike 1 n storing storing := by
  refine alike_binding.seq fun _ => alike_keyword.gain fun _ => alike_name.seq fun _ =>
    alike_symbol.seq fun _ => .behind ?_
  refine .anyToken (.expectedStoredText .endOfFile) (by simp) (fun _ => ⟨rfl, rfl⟩) fun token => ?_
  split
  · exact alike_symbol.seq fun _ => .pure
  · exact .fail (by simp)

/-- An index, where a brace is open. -/
theorem alikeAt_indexInBraces (hmore : isAt (.symbol .openBrace) s = .done true t) :
    AlikeAt t 1 indexInBraces indexInBraces := by
  obtain rfl := isAt_state hmore
  exact .pass (by simp [current_of_isAt hmore]) (Nat.lt_succ_of_lt (Nat.lt_succ_self _)) fun _ =>
    alike_expression.seq fun _ => alike_symbol.seq fun _ => .pure

theorem alike_mutation : Alike 1 n mutation mutation :=
  alike_keyword.gain fun _ => alike_name.seq fun _ =>
    (alike_many (fun _ => alike_isAt) fun _ _ _ => alikeAt_indexInBraces).seq fun _ =>
    alike_symbol.seq fun _ => alike_expression.seq fun _ => .pure

theorem alike_condition : Alike 1 n condition condition :=
  alike_symbol.gain fun _ => alike_expression.seq fun _ => alike_symbol.seq fun _ => .pure

theorem alike_blockGoesOn : Alike 0 n blockGoesOn blockGoesOn := by
  refine alike_peek.seq fun token => ?_
  split
  · exact .pure
  · exact .failHere fun _ => by simp
  · exact .pure

theorem alike_checkGoesOn : Alike 0 n checkGoesOn checkGoesOn :=
  .ifAt (fun s hs _ => (alike_lookahead.seq fun _ => .pure) s hs) .pure

theorem alike_overCollection : Alike 0 n overCollection overCollection := by
  refine alike_peek.seq fun token => ?_
  split
  · exact alike_lookahead.seq fun _ => .pure
  · exact .pure

theorem alike_rangeStep : Alike 0 n rangeStep rangeStep :=
  .ifAt (fun _ hs hval => .over (by simp [hval]) hs fun _ => alike_expression.behind)
    (alike_here.seq fun _ => .pure)

theorem alike_loopStart : Alike 1 n loopStart loopStart := by
  refine alike_peek.seq fun token => ?_
  split
  · exact alike_declaration.gain fun _ => .pure
  · exact alike_declaration.gain fun _ => .pure
  · exact alike_declaration.gain fun _ => .pure
  · exact alike_mutation.gain fun _ => .pure
  · exact alike_name.gain fun _ => .pure
  · exact .failHere fun _ => by simp

theorem Alike.located {p : Parse α} (hp : Alike 1 n p p) : Alike 1 n (located p) (located p) :=
  alike_here.seq fun _ => hp.gain fun _ => alike_lastStop.seq fun _ => .pure

/-! ## Statements -/

section Statements

variable {sub sub' : Parse Stmt}

/-- A block, the statements in it behind its brace. -/
theorem alike_block (hsub : Alike 1 n sub sub') : Alike 1 (n + 1) (block sub) (block sub') :=
  alike_symbol.front fun _ =>
    (alike_many (fun _ => alike_blockGoesOn) fun _ t ht _ => hsub t ht).seq fun _ =>
    alike_symbol.seq fun _ => .pure

theorem alike_guarded (hsub : Alike 1 n sub sub') :
    Alike 1 (n + 1) (guarded sub) (guarded sub') :=
  alike_keyword.front fun _ => alike_condition.seq fun _ => (alike_block hsub).behind.seq fun _ =>
    .pure

/-- Another check, where `or` stands. -/
theorem alikeAt_nextCheck (hsub : Alike 1 n sub sub') (ht : t.remaining < n)
    (hmore : checkGoesOn s = .done true t) :
    AlikeAt t 1 (do let _ ← advance; guarded sub) (do let _ ← advance; guarded sub') := by
  obtain rfl := Grammar.checkGoesOn_state hmore
  exact .pass (by simp [Grammar.current_of_checkGoesOn hmore]) (Nat.lt_succ_of_lt ht) fun _ =>
    (alike_guarded hsub).behind

theorem alike_lastBlock (hsub : Alike 1 n sub sub') :
    Alike 0 n (lastBlock sub) (lastBlock sub') :=
  .ifAt (fun _ hs hval => .over (by simp [hval]) hs fun _ =>
    (alike_block hsub).behind.seq fun _ => .pure) .pure

theorem alike_checkForm (hsub : Alike 1 n sub sub') :
    Alike 1 (n + 1) (checkForm sub) (checkForm sub') :=
  (alike_guarded hsub).front fun _ =>
    (alike_many (fun _ => alike_checkGoesOn) fun _ _ => alikeAt_nextCheck hsub).seq fun _ =>
    (alike_lastBlock hsub).seq fun _ => .pure

theorem alike_repeatForm (hsub : Alike 1 n sub sub') :
    Alike 1 (n + 1) (repeatForm sub) (repeatForm sub') := by
  refine alike_keyword.front fun _ => alike_symbol.seq fun _ => alike_name.seq fun _ =>
    alike_keyword.hinting.seq fun _ => alike_overCollection.seq fun _ => ?_
  split
  · exact alike_name.seq fun _ => alike_symbol.seq fun _ => (alike_block hsub).behind.seq fun _ =>
      .pure
  · exact alike_expression.seq fun _ => alike_keyword.hinting.seq fun _ =>
      alike_expression.seq fun _ => alike_rangeStep.seq fun _ => alike_symbol.seq fun _ =>
      (alike_block hsub).behind.seq fun _ => .pure

theorem alike_untilForm (hsub : Alike 1 n sub sub') :
    Alike 1 (n + 1) (untilForm sub) (untilForm sub') :=
  alike_keyword.front fun _ => alike_keyword.seq fun _ => alike_condition.seq fun _ =>
    (alike_block hsub).behind.seq fun _ => .pure

theorem alike_forForm (hsub : Alike 1 n sub sub') :
    Alike 1 (n + 1) (forForm sub) (forForm sub') :=
  alike_keyword.front fun _ => alike_symbol.seq fun _ => alike_loopStart.located.seq fun _ =>
    alike_symbol.seq fun _ => alike_expression.seq fun _ => alike_symbol.seq fun _ =>
    alike_mutation.located.seq fun _ => alike_symbol.seq fun _ =>
    (alike_block hsub).behind.seq fun _ => .pure

theorem alike_functionForm (hsub : Alike 1 n sub sub') :
    Alike 1 (n + 1) (functionForm sub) (functionForm sub') :=
  alike_keyword.front fun _ => alike_name.seq fun _ => alike_symbol.seq fun _ =>
    (alike_commaList alike_name).seq fun _ => alike_symbol.seq fun _ =>
    alike_annotation.seq fun _ => (alike_block hsub).behind.seq fun _ => .pure

theorem alike_declareForm : Alike 1 n declareForm declareForm :=
  alike_declaration.gain fun _ => alike_symbol.seq fun _ => .pure

theorem alike_storeForm : Alike 1 n storeForm storeForm :=
  alike_storing.gain fun _ => .pure

theorem alike_qualifiedForm : Alike 1 n qualifiedForm qualifiedForm := by
  refine alike_lookahead.seq fun token => ?_
  split
  · exact alike_declareForm
  · exact alike_storeForm
  · exact .failHere fun _ => by simp

theorem alike_updateForm : Alike 1 n updateForm updateForm :=
  alike_mutation.gain fun _ => alike_symbol.seq fun _ => .pure

theorem alikeAt_valueForm {make : Expr → Span → Stmt} (hne : s.current.value ≠ .endOfFile) :
    AlikeAt s 1 (valueForm make) (valueForm make) :=
  .pass hne (Nat.lt_succ_self _) fun _ => alike_expression.seq fun _ => alike_symbol.seq fun _ =>
    .pure

theorem alikeAt_bareForm {make : Span → Stmt} (hne : s.current.value ≠ .endOfFile) :
    AlikeAt s 1 (bareForm make) (bareForm make) :=
  .pass hne (Nat.lt_succ_self _) fun _ => alike_symbol.seq fun _ => .pure

theorem alikeAt_rawForm {code : String} (hne : s.current.value ≠ .endOfFile) :
    AlikeAt s 1 (rawForm code) (rawForm code) :=
  .pass hne (Nat.lt_succ_self _) fun _ =>
    .ifAt (fun _ ht hval => .over (by simp [hval]) ht fun _ => .pure) .pure

theorem alike_exprForm : Alike 1 n exprForm exprForm :=
  alike_expression.gain fun _ => alike_symbol.seq fun _ => .pure

theorem alike_statementForm (hsub : Alike 1 n sub sub') :
    Alike 1 (n + 1) (statementForm sub) (statementForm sub') := by
  refine .atCurrent fun s hs => ?_
  generalize hval : s.current.value = value
  -- one case for each token that a statement begins with, in the order of the definition
  split
  · exact alike_qualifiedForm s hs
  · exact alike_qualifiedForm s hs
  · exact alike_declareForm s hs
  · exact alike_storeForm s hs
  · exact alike_updateForm s hs
  · exact alike_checkForm hsub s hs
  · refine Alike.seq (n := n + 1) alike_lookahead (fun second => ?_) s hs
    split
    · exact alike_untilForm hsub
    · exact alike_repeatForm hsub
  · exact alike_forForm hsub s hs
  · exact alike_functionForm hsub s hs
  · exact alikeAt_valueForm (by simp [hval])
  · exact alikeAt_valueForm (by simp [hval])
  · exact alikeAt_valueForm (by simp [hval])
  · exact alikeAt_valueForm (by simp [hval])
  · exact alikeAt_bareForm (by simp [hval])
  · exact alikeAt_bareForm (by simp [hval])
  · exact alikeAt_rawForm (by simp [hval])
  · exact alike_exprForm s hs
  · exact alike_exprForm s hs
  · exact Alike.failHere (fun _ => by simp) s hs

/-- A statement, with the statements in its blocks given. -/
def statementStep (sub : Unit → Parse Stmt) : Unit → Parse Stmt := fun _ => do
  let start ← here
  let form ← statementForm (sub ())
  let stop ← lastStop
  pure (form ⟨start.start, stop⟩)

/-- The statements in a statement stand behind its first token. -/
theorem descends_statementStep : Descends 1 n statementStep statementStep :=
  fun _ _ _ _ hsub _ => alike_here.seq fun _ => (alike_statementForm (hsub ())).gain fun _ =>
    alike_lastStop.seq fun _ => .pure

theorem alike_statement : Alike 1 n statement statement :=
  descends_statementStep.withBudget (f := fun n _ => statementUpTo n)
    (g := fun n _ => statementUpTo n) (fun _ => rfl) (fun _ => rfl) ()

theorem resolves_statement : Resolves statementStep fun _ => statement :=
  Descends.resolves (f := fun n _ => statementUpTo n) (fun _ => descends_statementStep) fun _ => rfl

theorem alike_notAtEnd :
    Alike 0 n (do pure !(← isAt .endOfFile)) (do pure !(← isAt .endOfFile)) :=
  alike_isAt.seq fun _ => .pure

theorem alike_program : Alike 0 n program program :=
  alike_many (fun _ => alike_notAtEnd) fun _ t ht _ => alike_statement t ht

end Statements

/-! ## All loops and recursions -/

/-- Every loop and every recursion of the parser comes to an end, from every state. -/
structure AllResolve : Prop where
  /-- The statements of a program. -/
  statements : Resolves (manyStep (do pure !(← isAt .endOfFile)) statement) fun _ => program
  /-- A statement and the statements in its blocks. -/
  nesting : Resolves statementStep fun _ => statement
  /-- The statements of a block. -/
  bodies : Resolves (manyStep blockGoesOn statement) fun _ => many blockGoesOn statement
  /-- The checks that follow a check. -/
  checks : Resolves (manyStep checkGoesOn (do let _ ← advance; guarded statement)) fun _ =>
    many checkGoesOn (do let _ ← advance; guarded statement)
  /-- The indices of a mutation. -/
  indices : Resolves (manyStep (isAt (.symbol .openBrace)) indexInBraces) fun _ =>
    many (isAt (.symbol .openBrace)) indexInBraces
  /-- The names between commas: parameters of functions and of lambdas. -/
  names (role : NameRole) :
    Resolves (manyStep (isAt (.symbol .comma)) (do let _ ← advance; name role)) fun _ =>
      many (isAt (.symbol .comma)) (do let _ ← advance; name role)
  /-- The expressions between commas: arguments and elements. -/
  items : Resolves (manyStep (isAt (.symbol .comma)) (do let _ ← advance; expression)) fun _ =>
    many (isAt (.symbol .comma)) (do let _ ← advance; expression)
  /-- An expression and the expressions in it. -/
  operands : Resolves expressionStep expressionOf
  /-- The signs in front of an operand. -/
  signs : Resolves (operandStep expression) fun _ => operand expression
  /-- The operators behind an operand. -/
  operators (level : Nat) : Resolves (climbStep expressionOf level) (climb expressionOf level)

theorem allResolve : AllResolve where
  statements := resolves_many (fun _ => alike_notAtEnd) fun _ t _ =>
    alike_statement t (Nat.lt_succ_self _)
  nesting := resolves_statement
  bodies := resolves_many (fun _ => alike_blockGoesOn) fun _ t _ =>
    alike_statement t (Nat.lt_succ_self _)
  checks := resolves_many (fun _ => alike_checkGoesOn) fun _ _ =>
    alikeAt_nextCheck alike_statement (Nat.lt_succ_self _)
  indices := resolves_many (fun _ => alike_isAt) fun _ _ => alikeAt_indexInBraces
  names _ := resolves_many (fun _ => alike_isAt) fun _ _ =>
    alikeAt_commaItem alike_name (Nat.lt_succ_self _)
  items := resolves_many (fun _ => alike_isAt) fun _ _ =>
    alikeAt_commaItem alike_expression (Nat.lt_succ_self _)
  operands := resolves_expression
  signs := resolves_operand
  operators := resolves_climb

end Resin.Parse
