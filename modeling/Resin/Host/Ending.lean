/-!
# Endings

How a process ends.
-/

namespace Resin

/-- How a process ends: with an exit code, or by a signal. -/
inductive Ending where
  | exited (code : Nat)
  | killed
deriving DecidableEq, Repr, Inhabited

/-- The text of how a process ended. -/
def Ending.text : Ending → String
  | .exited code => "exit status: " ++ toString code
  | .killed => "signal: 9 (SIGKILL)"

end Resin
