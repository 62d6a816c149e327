import Resin.Diagnostic.Basic
import Resin.Diagnostic.Hint
import Resin.Token.Basic

/-!
# Causes of failure

Every way in which a compilation can fail, as data. The wording of messages and notes is here and
nowhere else: `Cause.message`, `Cause.note` and `Error.diagnostic`.
-/

namespace Resin

/-- What a name stands for in a construct. -/
inductive NameRole where
  | variableAfter (keyword : Keyword)
  | functionAfter (keyword : Keyword)
  | loopVariable
  | collection
  | parameter
  | lambdaParameter
  | identifier
  | methodTarget
  | methodName
deriving DecidableEq, Repr, Inhabited

/-- How the role of a name is put in a message. -/
def NameRole.describe : NameRole → String
  | .variableAfter keyword => "a variable name after '" ++ keyword.spelling ++ "'"
  | .functionAfter keyword => "a function name after '" ++ keyword.spelling ++ "'"
  | .loopVariable => "a loop variable"
  | .collection => "a collection name"
  | .parameter => "a parameter name"
  | .lambdaParameter => "a lambda parameter"
  | .identifier => "an identifier"
  | .methodTarget => "the variable the method is called on"
  | .methodName => "a method name"

/-- Why a compilation fails. -/
inductive Cause where
  -- no token can be read
  | unknownCharacter (char : Char)
  | unterminatedString
  | malformedRawBlock
  | unterminatedRawBlock
  -- the tokens form no program
  | expectedToken (expected found : Token)
  | expectedName (role : NameRole) (found : Token)
  | expectedQualified (qualifier found : Token)
  | unrecognizedStatement (found : Token)
  | expectedType (found : Token)
  | untypedDeclaration (name : String)
  | fixedWithoutValue (name : String)
  | expectedStoredText (found : Token)
  | unclosedBlock
  | expectedLoopStart (found : Token)
  | expectedExpression (found : Token)
  | expectedTargetType (found : Token)
  | trailingToken (found : Token)
  | tooDeep
  -- the program has no script
  | resultNeedsType (name callee : String)
  | arrayNeedsType (name : String)
  | emptyDeclaration (name : String)
  | unknownMethod (type : TypeName) (method : String) (supported : List String)
  | wrongArity (type : TypeName) (method : String) (expected given : Nat)
  | expectedLambda (type : TypeName) (method : String)
  | malformedSlice (type : TypeName) (method : String)
  | unmatchedBracket
  | emptyRegion
  | bareCall
deriving DecidableEq, Repr, Inhabited

namespace Cause

/-- The stage that finds a fault. -/
def stage : Cause → Stage
  | .unknownCharacter _ | .unterminatedString | .malformedRawBlock | .unterminatedRawBlock =>
    .lexical
  | .expectedToken _ _ | .expectedName _ _ | .expectedQualified _ _ | .unrecognizedStatement _
  | .expectedType _ | .untypedDeclaration _ | .fixedWithoutValue _ | .expectedStoredText _
  | .unclosedBlock | .expectedLoopStart _ | .expectedExpression _ | .expectedTargetType _
  | .trailingToken _ | .tooDeep => .syntactic
  | .resultNeedsType _ _ | .arrayNeedsType _ | .emptyDeclaration _ | .unknownMethod _ _ _
  | .wrongArity _ _ _ _ | .expectedLambda _ _ | .malformedSlice _ _ | .unmatchedBracket
  | .emptyRegion | .bareCall => .generation

/-- A text between the marks that set off code in a message. -/
def code (text : String) : String := "`" ++ text ++ "`"

/-- What went wrong. -/
def message : Cause → String
  | .unknownCharacter c => "unknown character " ++ code c.toString
  | .unterminatedString => "unterminated string literal"
  | .malformedRawBlock => "malformed raw block delimiter, expected `@js :~`"
  | .unterminatedRawBlock => "unterminated raw block, missing closing `~:`"
  | .expectedToken expected found =>
    "expected " ++ expected.describe ++ " but found " ++ found.describe
  | .expectedName role found => "expected " ++ role.describe ++ " but found " ++ found.describe
  | .expectedQualified qualifier found =>
    "expected 'assign' or 'store' after " ++ qualifier.describe ++ " but found " ++ found.describe
  | .unrecognizedStatement found => "unrecognized statement starting with " ++ found.describe
  | .expectedType found => "expected a type name after 'as' but found " ++ found.describe
  | .untypedDeclaration name =>
    "declaration of " ++ code name ++ " needs a type annotation when it has no value"
  | .fixedWithoutValue name => "fixed binding " ++ code name ++ " must be given a value"
  | .expectedStoredText found =>
    "'store' requires a string literal but found " ++ found.describe
  | .unclosedBlock => "expected '\x7d' to close the block but reached end of file"
  | .expectedLoopStart found =>
    "expected a declaration, update or variable to start the loop but found " ++ found.describe
  | .expectedExpression found => "expected an expression but found " ++ found.describe
  | .expectedTargetType found =>
    "expected a target type after 'method:' but found " ++ found.describe
  | .trailingToken found => "unexpected " ++ found.describe ++ " after expression"
  | .tooDeep => "the program is nested too deeply"
  | .resultNeedsType name callee =>
    code name ++ " is assigned the result of " ++ code callee ++ " and needs a declared type"
  | .arrayNeedsType name =>
    code name ++ " is assigned an array literal and must be declared `as array`"
  | .emptyDeclaration name =>
    "declaration of " ++ code name ++ " has neither a type nor a value"
  | .unknownMethod type method _ =>
    "unknown method " ++ code method ++ " for target type " ++ code type.spelling
  | .wrongArity type method expected given =>
    "method " ++ code method ++ " on " ++ code type.spelling ++ " takes " ++ toString expected ++
      (if expected = 1 then " argument" else " arguments") ++ " but " ++ toString given ++
      (if given = 1 then " was" else " were") ++ " given"
  | .expectedLambda type method =>
    "method " ++ code method ++ " on " ++ code type.spelling ++ " expects a lambda argument"
  | .malformedSlice type method =>
    "malformed slice notation for " ++ code method ++ " on " ++ code type.spelling
  | .unmatchedBracket => "unmatched '[' in interpolated string"
  | .emptyRegion => "empty interpolation region"
  | .bareCall => "function calls in a template string must be inside [ ] interpolation"

/-- What a reader may do about it. -/
def note : Cause → Option String
  | .unknownCharacter _ => some "this character does not start any token"
  | .unterminatedString => some "strings end at the next occurrence of their opening quote"
  | .unrecognizedStatement _ =>
    some ("statements start with a keyword such as assign, store, update, check, repeat, make, " ++
      "call or show")
  | .expectedType _ =>
    some "types are string, int, double, bool, array, object, null and undefined"
  | .untypedDeclaration _ | .fixedWithoutValue _ => some Hint.declaration.text
  | .expectedStoredText _ =>
    some "use a backtick string such as `Hello, [name]!` for interpolation"
  | .expectedTargetType _ => some Hint.method.text
  | .resultNeedsType name callee =>
    some ("write `assign " ++ name ++ " as <type> = call " ++ callee ++ "[...];`")
  | .unknownMethod type _ supported =>
    if supported.isEmpty then
      some "method dispatch is available for `array` and `string` targets"
    else some (code type.spelling ++ " supports: " ++ ", ".intercalate supported)
  | .expectedLambda _ _ => some "write a lambda such as `[x] -> x * 2`"
  | .malformedSlice _ _ => some "use a string literal such as \"2:5\", \"::2\" or \"::-1\""
  | .unmatchedBracket => some "every interpolation region must be closed with ']'"
  | .bareCall => some "write `[call name[args]]` to interpolate the result"
  | _ => none

end Cause

/-- A failure at a place in the source. A hint takes the place of the cause's own note. -/
structure Error where
  cause : Cause
  span : Span
  hint : Option Hint := none
deriving DecidableEq, Repr, Inhabited

namespace Error

/-- The same failure with a hint for its note. -/
def withHint (hint : Hint) (e : Error) : Error :=
  { e with hint := some hint }

/-- The same failure in a text that starts `offset` bytes later. -/
def shift (offset : Nat) (e : Error) : Error :=
  { e with span := e.span.shift offset }

/-- The note that goes with a failure. -/
def note (e : Error) : Option String :=
  match e.hint with
  | some hint => some hint.text
  | none => e.cause.note

/-- The report on a failure. -/
def diagnostic (e : Error) : Diagnostic :=
  ⟨e.cause.stage, e.cause.message, e.span, e.note⟩

@[simp] theorem diagnostic_shift (offset : Nat) (e : Error) :
    (e.shift offset).diagnostic = e.diagnostic.shift offset := rfl

end Error

end Resin
