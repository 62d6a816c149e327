import Resin.Parse.Basic
import Resin.Tree.Expr

/-!
# Parsing expressions

Binary operators are read by precedence climbing: after an operand, an operator of a level that is
high enough takes the operand as its left side and an expression of a higher level as its right
side, and the result is the next left side. So operators of one level group to the left.

The parts of an expression that are expressions themselves are read by a parse given as an
argument, and `expressionUpTo` ties the knot.
-/

namespace Resin.Parse

/-- Arguments in square brackets. -/
def arguments (sub : Parse Expr) : Parse (List Expr) := do
  let _ ← symbol .openBracket
  let args ← commaList .closeBracket sub
  let _ ← symbol .closeBracket
  pure args

/-- A name, `name{index}`, or a lambda `name -> body`. -/
def nameForm (sub : Parse Expr) : Parse Expr := do
  let word ← name .identifier
  match ← peek with
  | .symbol .arrow =>
    let _ ← advance
    let body ← sub
    pure (.lambda [word.value] body ⟨word.span.start, body.span.stop⟩)
  | .symbol .openBrace =>
    let _ ← advance
    let index ← sub
    let _ ← symbol .closeBrace
    let stop ← lastStop
    pure (.index (.name word.value word.span) index ⟨word.span.start, stop⟩)
  | _ => pure (.name word.value word.span)

/-- The parameters of a lambda, up to and with its arrow. -/
def lambdaHeader : Parse (List String) := do
  let _ ← symbol .openBracket
  let params ← commaList .closeBracket (name .lambdaParameter)
  let _ ← symbol .closeBracket
  let _ ← symbol .arrow
  pure (params.map Located.value)

/-- A lambda `[a, b] -> body`, or else an expression in square brackets. -/
def bracketForm (sub : Parse Expr) : Parse Expr := do
  let start ← here
  match ← attempt lambdaHeader with
  | some params =>
    let body ← sub
    pure (.lambda params body ⟨start.start, body.span.stop⟩)
  | none =>
    let _ ← symbol .openBracket
    let inner ← sub
    let _ ← symbol .closeBracket
    let stop ← lastStop
    pure (inner.withSpan ⟨start.start, stop⟩)

/-- An array, its elements in braces. -/
def arrayForm (sub : Parse Expr) : Parse Expr := do
  let start ← symbol .openBrace
  let elements ← commaList .closeBrace sub
  let _ ← symbol .closeBrace
  let stop ← lastStop
  pure (.array elements ⟨start.start, stop⟩)

/-- A call of a function. -/
def callForm (sub : Parse Expr) : Parse Expr := do
  let start ← keyword .call
  let callee ← name (.functionAfter .call)
  let args ← arguments sub
  let stop ← lastStop
  pure (.call callee.value args ⟨start.start, stop⟩)

/-- The type of the value that a method is called on. -/
def targetType : Parse (Located TypeName) := do
  let token ← advance
  match token.value with
  | .type type => pure ⟨type, token.span⟩
  | other => fail (.expectedTargetType other) token.span

/-- A call of a method on a variable. -/
def methodForm (sub : Parse Expr) : Parse Expr := do
  let start ← keyword .method
  let _ ← hinting .method (symbol .colon)
  let type ← targetType
  let target ← name .methodTarget
  let _ ← hinting .method (symbol .dot)
  let method ← name .methodName
  let args ← arguments sub
  let stop ← lastStop
  pure (.method type target.value method args ⟨start.start, stop⟩)

/-- A literal, or an expression in parentheses. -/
def atom (sub : Parse Expr) : Parse Expr := do
  let token ← advance
  match token.value with
  | .number value => pure (.number value token.span)
  | .text content quote => pure (.text content quote token.span)
  | .bool value => pure (.bool value token.span)
  | .null | .type .null => pure (.null token.span)
  | .undefined | .type .undefined => pure (.undefined token.span)
  | .input => pure (.input token.span)
  | .symbol .openParen =>
    let inner ← sub
    let _ ← symbol .closeParen
    let stop ← lastStop
    pure (inner.withSpan ⟨token.span.start, stop⟩)
  | other => fail (.expectedExpression other) token.span

/-- An expression that is no operation, its form given by its first token. -/
def primary (sub : Parse Expr) : Parse Expr := do
  match ← peek with
  | .name _ => nameForm sub
  | .symbol .openBracket => bracketForm sub
  | .symbol .openBrace => arrayForm sub
  | .keyword .call => callForm sub
  | .keyword .method => methodForm sub
  | _ => atom sub

/-- An expression with any number of signs in front of it. -/
def operandUpTo (sub : Parse Expr) : Nat → Parse Expr
  | 0 => exhausted
  | n + 1 => do
    match Sign.ofToken? (← peek) with
    | none => primary sub
    | some sign =>
      let token ← advance
      let operand ← operandUpTo sub n
      pure (.signed sign operand ⟨token.span.start, operand.span.stop⟩)

/-- Operations with operators of `level` or higher whose left operand has been read. -/
def climbUpTo (sub : Nat → Parse Expr) (level : Nat) : Nat → Expr → Parse Expr
  | 0, _ => exhausted
  | n + 1, left => do
    match BinaryOp.ofToken? (← peek) with
    | none => pure left
    | some op =>
      if level ≤ op.level then
        let _ ← advance
        let right ← sub (op.level + 1)
        climbUpTo sub level n (.binary op left right ⟨left.span.start, right.span.stop⟩)
      else pure left

/-- An expression with operators of `level` or higher, nested less than `n` deep. -/
def expressionUpTo : Nat → Nat → Parse Expr
  | 0, _ => exhausted
  | n + 1, level => do
    let left ← withBudget (operandUpTo (expressionUpTo n 1))
    withBudget fun budget => climbUpTo (expressionUpTo n) level budget left

/-- An expression. -/
def expression : Parse Expr :=
  withBudget fun n => expressionUpTo n 1

/-- An expression and nothing after it. -/
def standalone : Parse Expr := do
  let e ← expression
  if ← isAt .endOfFile then pure e else failHere .trailingToken

end Resin.Parse
