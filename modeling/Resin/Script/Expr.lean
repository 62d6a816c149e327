import Resin.Diagnostic.Cause
import Resin.Script.Fragment
import Resin.Script.Literal
import Resin.Script.Method
import Resin.Script.Slice
import Resin.Tree.Expr

/-!
# Scripts of expressions

Every operation is written in parentheses, so a script groups its operands as the program does.
Only method calls can fail: the method must exist and fit its arguments.
-/

namespace Resin

namespace Expr

/-- Whether an expression is a lambda. -/
def isLambda : Expr → Bool
  | .lambda _ _ _ => true
  | _ => false

/-- The slice that an argument writes, if it is a string literal. -/
def slice? : Expr → Option Slice
  | .text content _ _ => Slice.ofText? content
  | _ => none

/-- The method that a call names, if it exists and takes that many arguments. -/
def resolveMethod (type : TypeName) (method : Located String) (given : Nat) (span : Span) :
    Except Error Method :=
  match Method.find? type method.value with
  | none => .error ⟨.unknownMethod type method.value (Method.names type), method.span, none⟩
  | some m =>
    if given = m.arity then .ok m
    else .error ⟨.wrongArity type method.value m.arity given, span, none⟩

/-- Refuses a first argument that is no lambda. -/
def requireLambda (type : TypeName) (method : String) : List Expr → Except Error Unit
  | [] => .ok ()
  | arg :: _ =>
    if arg.isLambda then .ok () else .error ⟨.expectedLambda type method, arg.span, none⟩

/-- The slice that the first argument writes. -/
def requireSlice (type : TypeName) (method : String) : List Expr → Except Error Slice
  | [] => .ok (.range none none)
  | arg :: _ =>
    match arg.slice? with
    | some slice => .ok slice
    | none => .error ⟨.malformedSlice type method, arg.span, none⟩

/-- A text with its places filled in by a target and the scripts of the arguments. -/
def fillMethod (template target : String) (args : List Fragment) : Fragment :=
  ⟨Method.fill template target (args.map Fragment.code), Fragment.allFeatures args⟩

mutual

/-- The script of an expression. -/
def script : Expr → Except Error Fragment
  | .number value _ => .ok value.text
  | .text content _ _ => .ok (Literal.quoted content)
  | .bool value _ => .ok (if value then "true" else "false" : String)
  | .null _ => .ok "null"
  | .undefined _ => .ok "undefined"
  | .input _ => .ok (.reading "__epx_input()")
  | .name word _ => .ok word
  | .index target place _ => do
    let target ← script target
    let place ← script place
    pure (target ++ "[" ++ place ++ "]")
  | .call callee args _ => do
    let args ← scripts args
    pure (callee ++ "(" ++ Fragment.join ", " args ++ ")")
  | .array elements _ => do
    let elements ← scripts elements
    pure ("[" ++ Fragment.join ", " elements ++ "]")
  | .lambda params body _ => do
    let body ← script body
    pure ("((" ++ ", ".intercalate params ++ ") => " ++ body ++ ")")
  | .method type target called args span => do
    let m ← resolveMethod type.value called args.length span
    match m.lowering with
    | .template template =>
      let args ← scripts args
      pure (fillMethod template target args)
    | .lambda template =>
      requireLambda type.value called.value args
      let args ← scripts args
      pure (fillMethod template target args)
    | .slice =>
      let slice ← requireSlice type.value called.value args
      pure (slice.script type.value target : String)
  | .binary op left right _ => do
    let left ← script left
    let right ← script right
    pure ("(" ++ left ++ " " ++ op.script ++ " " ++ right ++ ")")
  | .signed sign operand _ => do
    let operand ← script operand
    pure ("(" ++ sign.spelling ++ operand ++ ")")

/-- The scripts of some expressions. -/
def scripts : List Expr → Except Error (List Fragment)
  | [] => .ok []
  | e :: es => do
    let first ← script e
    let rest ← scripts es
    pure (first :: rest)

end

end Expr

end Resin
