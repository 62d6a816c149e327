import Resin.Parse.Expr
import Resin.Tree.Stmt

/-!
# Parsing statements

The form of a statement is given by its first token, and for a few by its second. The statements
in a block are read by a parse given as an argument, and `statementUpTo` ties the knot.
-/

namespace Resin.Parse

/-! ## Parts of statements -/

/-- The reach of a variable, given by a keyword in front of its declaration. -/
def binding : Parse Binding := do
  match ← peek with
  | .keyword .all =>
    let _ ← advance
    pure .global
  | .keyword .fix =>
    let _ ← advance
    pure .fixed
  | _ => pure .plain

/-- A type after the keyword `as`, if that stands here. -/
def annotation : Parse (Option (Located TypeName)) := do
  if ← isAt (.keyword .as) then
    let _ ← advance
    let token ← advance
    match token.value with
    | .type type => pure (some ⟨type, token.span⟩)
    | other => fail (.expectedType other) token.span
  else pure none

/-- A value after an equals sign, if that stands here. -/
def optionalValue : Parse (Option Expr) := do
  if ← isAt (.symbol .assign) then
    let _ ← advance
    let value ← expression
    pure (some value)
  else pure none

/-- A declaration without its semicolon. It needs a type or a value, and a fixed variable needs a
value. -/
def declaration : Parse Declaration := do
  let binding ← binding
  let start ← keyword .assign
  let word ← name (.variableAfter .assign)
  let type ← annotation
  let value ← optionalValue
  let stop ← lastStop
  if value.isNone && type.isNone then
    fail (.untypedDeclaration word.value) ⟨start.start, stop⟩
  else if value.isNone && binding == .fixed then
    fail (.fixedWithoutValue word.value) ⟨start.start, stop⟩
  else pure ⟨binding, word.value, type, value⟩

/-- A variable that holds the text of a string literal. -/
def storing : Parse Store := do
  let binding ← binding
  let _ ← keyword .store
  let word ← name (.variableAfter .store)
  let _ ← symbol .assign
  let token ← advance
  match token.value with
  | .text content quote =>
    let _ ← symbol .semicolon
    pure ⟨binding, word.value, content, quote, token.span⟩
  | other => fail (.expectedStoredText other) token.span

/-- An index in braces. -/
def indexInBraces : Parse Expr := do
  let _ ← advance
  let index ← expression
  let _ ← symbol .closeBrace
  pure index

/-- A mutation without its semicolon. -/
def mutation : Parse Mutation := do
  let _ ← keyword .update
  let word ← name (.variableAfter .update)
  let indices ← many (isAt (.symbol .openBrace)) indexInBraces
  let _ ← symbol .assign
  let value ← expression
  pure ⟨word.value, indices, value⟩

/-- A condition in square brackets. -/
def condition : Parse Expr := do
  let _ ← symbol .openBracket
  let e ← expression
  let _ ← symbol .closeBracket
  pure e

/-- Whether a block goes on: up to its closing brace, which must come before the end of the
file. -/
def blockGoesOn : Parse Bool := do
  match ← peek with
  | .symbol .closeBrace => pure false
  | .endOfFile => failHere fun _ => .unclosedBlock
  | _ => pure true

/-- Statements in braces. -/
def block (sub : Parse Stmt) : Parse (List Stmt) := do
  let _ ← symbol .openBrace
  let body ← many blockGoesOn sub
  let _ ← symbol .closeBrace
  pure body

/-! ## Forms of statements

Each parse gives the statement without its span. -/

/-- A declaration with its semicolon. -/
def declareForm : Parse (Span → Stmt) := do
  let d ← declaration
  let _ ← symbol .semicolon
  pure (.declare d)

/-- A stored text. -/
def storeForm : Parse (Span → Stmt) := do
  let s ← storing
  pure (.store s)

/-- A declaration or a stored text after a keyword for its reach. -/
def qualifiedForm : Parse (Span → Stmt) := do
  match ← lookahead with
  | .keyword .assign => declareForm
  | .keyword .store => storeForm
  | other => failHere fun qualifier => .expectedQualified qualifier other

/-- A mutation with its semicolon. -/
def updateForm : Parse (Span → Stmt) := do
  let m ← mutation
  let _ ← symbol .semicolon
  pure (.update m)

/-- A condition and the block that it guards. -/
def guarded (sub : Parse Stmt) : Parse (Expr × List Stmt) := do
  let _ ← keyword .check
  let test ← condition
  let body ← block sub
  pure (test, body)

/-- Whether another check follows: `or` alone does not belong to the statement. -/
def checkGoesOn : Parse Bool := do
  if ← isAt (.keyword .or) then
    let second ← lookahead
    pure (second == .keyword .check)
  else pure false

/-- The last block of a check, if there is one. -/
def lastBlock (sub : Parse Stmt) : Parse Otherwise := do
  if ← isAt (.keyword .alt) then
    let _ ← advance
    let body ← block sub
    pure (.block body)
  else pure .nothing

/-- A check with the checks and the block that follow it. -/
def checkForm (sub : Parse Stmt) : Parse (Span → Stmt) := do
  let (test, body) ← guarded sub
  let others ← many checkGoesOn (do let _ ← advance; guarded sub)
  let last ← lastBlock sub
  pure (.check test body (others.foldr (fun (test, body) next => .check test body next) last))

/-- Whether the header of a loop names a collection: a name in front of the closing bracket. -/
def overCollection : Parse Bool := do
  match ← peek with
  | .name _ =>
    let second ← lookahead
    pure (second == .symbol .closeBracket)
  | _ => pure false

/-- The step of a range, or one, written nowhere, if there is none. -/
def rangeStep : Parse Expr := do
  if ← isAt (.symbol .comma) then
    let _ ← advance
    expression
  else
    let span ← here
    pure (.number .one (.point span.start))

/-- A loop over a collection or a range. -/
def repeatForm (sub : Parse Stmt) : Parse (Span → Stmt) := do
  let _ ← keyword .repeat_
  let _ ← symbol .openBracket
  let counter ← name .loopVariable
  let _ ← hinting .loop (keyword .in_)
  if ← overCollection then
    let collection ← name .collection
    let _ ← symbol .closeBracket
    let body ← block sub
    pure (.repeatEach counter.value collection.value body)
  else
    let first ← expression
    let _ ← hinting .loop (keyword .to)
    let last ← expression
    let step ← rangeStep
    let _ ← symbol .closeBracket
    let body ← block sub
    pure (.repeatRange counter.value first last step body)

/-- A loop that ends when its condition holds. -/
def untilForm (sub : Parse Stmt) : Parse (Span → Stmt) := do
  let _ ← keyword .repeat_
  let _ ← keyword .until_
  let test ← condition
  let body ← block sub
  pure (.repeatUntil test body)

/-- What the header of a counting loop starts with. -/
def loopStart : Parse LoopStart := do
  match ← peek with
  | .keyword .assign | .keyword .all | .keyword .fix =>
    let d ← declaration
    pure (.declare d)
  | .keyword .update =>
    let m ← mutation
    pure (.update m)
  | .name _ =>
    let word ← name .loopVariable
    pure (.name word.value)
  | _ => failHere .expectedLoopStart

/-- A value with the span from the current token to the last one passed for it. -/
def located {α : Type} (p : Parse α) : Parse (Located α) := do
  let start ← here
  let value ← p
  let stop ← lastStop
  pure ⟨value, ⟨start.start, stop⟩⟩

/-- A counting loop. -/
def forForm (sub : Parse Stmt) : Parse (Span → Stmt) := do
  let _ ← keyword .for_
  let _ ← symbol .openBracket
  let start ← located loopStart
  let _ ← symbol .semicolon
  let test ← expression
  let _ ← symbol .semicolon
  let increment ← located mutation
  let _ ← symbol .closeBracket
  let body ← block sub
  pure (.forLoop start test increment body)

/-- A function. -/
def functionForm (sub : Parse Stmt) : Parse (Span → Stmt) := do
  let _ ← keyword .make
  let word ← name (.functionAfter .make)
  let _ ← symbol .openBracket
  let params ← commaList .closeBracket (name .parameter)
  let _ ← symbol .closeBracket
  let returns ← annotation
  let body ← block sub
  pure (.function word.value (params.map Located.value) returns body)

/-- A keyword with an expression. -/
def valueForm (make : Expr → Span → Stmt) : Parse (Span → Stmt) := do
  let _ ← advance
  let value ← expression
  let _ ← symbol .semicolon
  pure (make value)

/-- A keyword alone. -/
def bareForm (make : Span → Stmt) : Parse (Span → Stmt) := do
  let _ ← advance
  let _ ← symbol .semicolon
  pure make

/-- A raw block, with or without a semicolon. -/
def rawForm (code : String) : Parse (Span → Stmt) := do
  let _ ← advance
  if ← isAt (.symbol .semicolon) then
    let _ ← advance
    pure (.raw code)
  else pure (.raw code)

/-- An expression as a statement. -/
def exprForm : Parse (Span → Stmt) := do
  let value ← expression
  let _ ← symbol .semicolon
  pure (.expr value)

/-! ## Statements and programs -/

/-- A statement without its span. -/
def statementForm (sub : Parse Stmt) : Parse (Span → Stmt) := do
  match ← peek with
  | .keyword .all | .keyword .fix => qualifiedForm
  | .keyword .assign => declareForm
  | .keyword .store => storeForm
  | .keyword .update => updateForm
  | .keyword .check => checkForm sub
  | .keyword .repeat_ =>
    match ← lookahead with
    | .keyword .until_ => untilForm sub
    | _ => repeatForm sub
  | .keyword .for_ => forForm sub
  | .keyword .make => functionForm sub
  | .keyword .give => valueForm .give
  | .keyword .show_ => valueForm .display
  | .keyword .error => valueForm .error
  | .keyword .panic => valueForm .panic
  | .keyword .skip => bareForm .skip
  | .keyword .halt => bareForm .halt
  | .raw code => rawForm code
  | .keyword .call | .keyword .method => exprForm
  | _ => failHere .unrecognizedStatement

/-- A statement whose blocks are nested less than `n` deep. -/
def statementUpTo : Nat → Parse Stmt
  | 0 => exhausted
  | n + 1 => do
    let start ← here
    let form ← statementForm (statementUpTo n)
    let stop ← lastStop
    pure (form ⟨start.start, stop⟩)

/-- A statement. -/
def statement : Parse Stmt :=
  withBudget statementUpTo

/-- Statements up to the end of the file. -/
def program : Parse (List Stmt) :=
  many (do pure !(← isAt .endOfFile)) statement

/-- The value of a parse, without the state it leaves. -/
def run {α : Type} (p : Parse α) (s : ParseState) : Except Error α :=
  match p s with
  | .done value _ => .ok value
  | .failed e _ => .error e

end Resin.Parse

namespace Resin

/-- The statements of a source. -/
def parseProgram (source : String) : Except Error (List Stmt) := do
  let start ← ParseState.ofText source
  Parse.program.run start

/-- The expression that a source is. -/
def parseExpression (source : String) : Except Error Expr := do
  let start ← ParseState.ofText source
  Parse.standalone.run start

end Resin
