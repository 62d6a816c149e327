import Resin.Script.Region
import Resin.Tree.Stmt

/-!
# Scripts of statements

A declared type is registered when its variable is declared and checked when the variable is
assigned. A declaration without a type forgets the type of a variable of the same name, if any
declaration in the program gives one.
-/

namespace Resin

/-- The script keyword of a binding. -/
def Binding.script : Binding → String
  | .plain => "let"
  | .global => "var"
  | .fixed => "const"

/-- A block of a script, a statement on each line. -/
def braced (lines : List Fragment) : Fragment :=
  "\x7b\n" ++ Fragment.join "\n" lines ++ "\n\x7d"

/-! ## Names with a declared type -/

/-- The name of a declaration, if it gives a type. -/
def Declaration.typedName (d : Declaration) : List String :=
  if d.type.isSome then [d.name] else []

/-- The name that the header of a counting loop gives a type. -/
def LoopStart.typedName : LoopStart → List String
  | .declare d => d.typedName
  | .update _ | .name _ => []

namespace Stmt

mutual

/-- The names that a statement gives a type, at any depth. -/
def typedNames : Stmt → List String
  | .declare d _ => d.typedName
  | .check _ body other _ => typedNamesList body ++ typedNamesOtherwise other
  | .repeatRange _ _ _ _ body _ => typedNamesList body
  | .repeatEach _ _ body _ => typedNamesList body
  | .repeatUntil _ body _ => typedNamesList body
  | .forLoop start _ _ body _ => start.value.typedName ++ typedNamesList body
  | .function _ _ _ body _ => typedNamesList body
  | .store _ _ | .update _ _ | .give _ _ | .display _ _ | .error _ _ | .panic _ _ | .skip _
  | .halt _ | .raw _ _ | .expr _ _ => []

/-- The names that the statements of a block give a type. -/
def typedNamesList : List Stmt → List String
  | [] => []
  | stmt :: stmts => typedNames stmt ++ typedNamesList stmts

/-- The names that the rest of a check gives a type. -/
def typedNamesOtherwise : Otherwise → List String
  | .nothing => []
  | .check _ body next => typedNamesList body ++ typedNamesOtherwise next
  | .block body => typedNamesList body

end

end Stmt

/-! ## Parts of statements -/

namespace Declaration

/-- Refuses the result of a call without a declared type, and an array that is not declared as
one. -/
def checkType (d : Declaration) (span : Span) : Except Error Unit :=
  match d.value, d.type.map Located.value with
  | some (.call callee _ _), none => .error ⟨.resultNeedsType d.name callee, span, none⟩
  | some (.array _ _), type =>
    if type = some .array then .ok () else .error ⟨.arrayNeedsType d.name, span, none⟩
  | _, _ => .ok ()

/-- The script of the initial value of a declaration. `typed` holds the names with a declared
type. -/
def valueScript (typed : List String) (d : Declaration) (span : Span) : Except Error Fragment :=
  let name := Literal.quoted d.name
  match d.type, d.value with
  | some type, some value => do
    let value ← value.script
    pure (.typed "__epx_register(" ++ name ++ ", " ++ Literal.quoted type.value.spelling ++ ", " ++
      value ++ ")")
  | some type, none =>
    .ok (.typed ("__epx_register(" ++ name ++ ", " ++ Literal.quoted type.value.spelling ++ ")"))
  | none, some value => do
    let value ← value.script
    if typed.contains d.name then pure (.typed "__epx_forget(" ++ name ++ ", " ++ value ++ ")")
    else pure value
  | none, none => .error ⟨.emptyDeclaration d.name, span, none⟩

/-- The script of a declaration, without its semicolon. -/
def script (typed : List String) (d : Declaration) (span : Span) : Except Error Fragment := do
  d.checkType span
  let value ← d.valueScript typed span
  pure (d.binding.script ++ " " ++ d.name ++ " = " ++ value)

end Declaration

/-- The script of a stored text: a template literal if it is written between backticks. -/
def Store.script (s : Store) : Except Error Fragment := do
  let value ← match s.quote with
    | .backtick => do
      Segment.refuseBareCalls s.content (s.contentSpan.start + 1)
      templateScript s.content (s.contentSpan.start + 1)
    | .double | .single => .ok (Literal.quoted s.content)
  pure (s.binding.script ++ " " ++ s.name ++ " = " ++ value ++ ";")

/-- The script of a mutation, without its semicolon. A variable as a whole is checked against its
declared type; a place in it is not. -/
def Mutation.script (m : Mutation) : Except Error Fragment := do
  let value ← m.value.script
  if m.indices.isEmpty then
    pure (m.target ++ .typed " = __epx_validate(" ++ Literal.quoted m.target ++ ", " ++ value ++ ")")
  else
    let indices ← Expr.scripts m.indices
    let place := Fragment.join "" (indices.map fun i => "[" ++ i ++ "]")
    pure (m.target ++ place ++ " = " ++ value)

/-- The script of a printed value: a text with an opening bracket is one with regions. -/
def Expr.printedScript (e : Expr) : Except Error Fragment :=
  match e with
  | .text content _ span =>
    if content.toList.contains '[' then templateScript content (span.start + 1) else e.script
  | _ => e.script

/-- The script of what the header of a counting loop starts with. -/
def LoopStart.script (typed : List String) (start : Located LoopStart) : Except Error Fragment :=
  match start.value with
  | .declare d => d.script typed start.span
  | .update m => m.script
  | .name word => .ok word

/-- The script of a loop over a range. It counts up if the first bound is at most the last one,
and else down; each clause of its header tests this again. -/
def rangeLoop (counter : String) (first last step : Fragment) (body : List Fragment) : Fragment :=
  let up : Fragment := "(" ++ first ++ " <= " ++ last ++ ")"
  "for (let " ++ counter ++ " = " ++ up ++ " ? " ++ first ++ " : " ++ first ++ "; " ++
    up ++ " ? " ++ counter ++ " <= " ++ last ++ " : " ++ counter ++ " >= " ++ last ++ "; " ++
    counter ++ " += " ++ up ++ " ? Math.abs(" ++ step ++ ") : -Math.abs(" ++ step ++ ")) " ++
    braced body

/-- The script of a function. The result of one with a declared type is checked. -/
def functionScript (name : String) (params : List String) (returns : Option (Located TypeName))
    (body : List Fragment) : Fragment :=
  let header := "function " ++ name ++ "(" ++ ", ".intercalate params ++ ") "
  match returns with
  | none => header ++ braced body
  | some type =>
    header ++ braced [.typed "return __epx_returns(" ++ Literal.quoted name ++ ", " ++
      Literal.quoted type.value.spelling ++ ", (() => " ++ braced body ++ ")());"]

/-! ## Statements -/

namespace Stmt

mutual

/-- The script of a statement. `typed` holds the names with a declared type. -/
def script (typed : List String) : Stmt → Except Error Fragment
  | .declare d span => do
    let code ← d.script typed span
    pure (code ++ ";")
  | .store s _ => s.script
  | .update m _ => do
    let code ← m.script
    pure (code ++ ";")
  | .check condition body other _ => do
    let condition ← condition.script
    let body ← scripts typed body
    let other ← otherwiseScript typed other
    pure ("if (" ++ condition ++ ") " ++ braced body ++ other)
  | .repeatRange counter first last step body _ => do
    let first ← first.script
    let last ← last.script
    let step ← step.script
    let body ← scripts typed body
    pure (rangeLoop counter first last step body)
  | .repeatEach item collection body _ => do
    let body ← scripts typed body
    pure ("for (const " ++ item ++ " of " ++ collection ++ ") " ++ braced body)
  | .repeatUntil condition body _ => do
    let body ← scripts typed body
    let condition ← condition.script
    pure ("do " ++ braced body ++ " while (!(" ++ condition ++ "));")
  | .forLoop start condition increment body _ => do
    let start ← LoopStart.script typed start
    let condition ← condition.script
    let increment ← increment.value.script
    let body ← scripts typed body
    pure ("for (" ++ start ++ "; " ++ condition ++ "; " ++ increment ++ ") " ++ braced body)
  | .function name params returns body _ => do
    let body ← scripts typed body
    pure (functionScript name params returns body)
  | .give value _ => do
    let value ← value.script
    pure ("return " ++ value ++ ";")
  | .display value _ => do
    let value ← value.printedScript
    pure ("console.log(" ++ value ++ ");")
  | .error value _ => do
    let value ← value.printedScript
    pure ("console.error(" ++ value ++ ");")
  | .panic value _ => do
    let value ← value.printedScript
    pure ("throw new Error(String(" ++ value ++ "));")
  | .skip _ => .ok "continue;"
  | .halt _ => .ok "break;"
  | .raw code _ => .ok code
  | .expr value _ => do
    let value ← value.script
    pure (value ++ ";")

/-- The scripts of the statements of a block. -/
def scripts (typed : List String) : List Stmt → Except Error (List Fragment)
  | [] => .ok []
  | stmt :: stmts => do
    let first ← script typed stmt
    let rest ← scripts typed stmts
    pure (first :: rest)

/-- The script of the rest of a check. -/
def otherwiseScript (typed : List String) : Otherwise → Except Error Fragment
  | .nothing => .ok ""
  | .check condition body next => do
    let condition ← condition.script
    let body ← scripts typed body
    let next ← otherwiseScript typed next
    pure (" else if (" ++ condition ++ ") " ++ braced body ++ next)
  | .block body => do
    let body ← scripts typed body
    pure (" else " ++ braced body)

end

end Stmt

/-- The script of a program, without preambles. -/
def programScript (program : List Stmt) : Except Error Fragment := do
  let lines ← Stmt.scripts (Stmt.typedNamesList program) program
  pure (Fragment.join "\n" lines)

end Resin
