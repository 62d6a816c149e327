import Resin.Position

/-!
# Diagnostics

What a failed compilation reports: the stage that failed, a message, the place in the source and
an optional note.
-/

namespace Resin

/-- The stage of compilation that finds a fault. -/
inductive Stage where
  | lexical | syntactic | generation
deriving DecidableEq, Repr, Inhabited

/-- The name of a stage's faults. -/
def Stage.title : Stage → String
  | .lexical => "Lexical Error"
  | .syntactic => "Syntax Error"
  | .generation => "Generation Error"

/-- A report on a source text. -/
structure Diagnostic where
  stage : Stage
  message : String
  span : Span
  note : Option String
deriving DecidableEq, Repr, Inhabited

namespace Diagnostic

/-- The same report on a text that starts `offset` bytes later. -/
def shift (offset : Nat) (d : Diagnostic) : Diagnostic :=
  { d with span := d.span.shift offset }

/-- The report on one line, without its note. -/
def text (d : Diagnostic) : String :=
  d.stage.title ++ " at " ++ toString d.span.start ++ ".." ++ toString d.span.stop ++ ": " ++
    d.message

end Diagnostic

end Resin
