import Resin.Diagnostic.Basic
import Resin.Host.Ending

/-!
# Failures of a run

Everything that can keep a program from being compiled and run, with its text.
-/

namespace Resin

/-- Why a program could not be compiled and run. -/
inductive Failure where
  | input (message : String)
  | compilation (diagnostic : Diagnostic)
  | host (command message : String)
  | program (ending : Ending)
deriving DecidableEq, Repr, Inhabited

/-- The text of a failure. -/
def Failure.text : Failure → String
  | .input message => "IO error: " ++ message
  | .compilation diagnostic => diagnostic.text
  | .host command message =>
    "could not start host interpreter `" ++ command ++ "`: " ++ message
  | .program ending => "program exited with " ++ ending.text

end Resin
