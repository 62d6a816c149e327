/-!
# Host commands

A script is run by a host, a command that is given the script's file. The commands known here are
the shell, the one that shows the script, and the two that only succeed or fail.
-/

namespace Resin

/-- A command that can be started. -/
inductive Command where
  | shell | showFile | succeed | refuse
deriving DecidableEq, Repr, Inhabited

namespace Command

/-- The known commands by the names of their files. -/
def named : List (String × Command) :=
  [("sh", .shell), ("cat", .showFile), ("true", .succeed), ("false", .refuse)]

/-- Whether a command succeeds when it is asked for its version. -/
def hasVersion : Command → Bool
  | .showFile | .succeed => true
  | .shell | .refuse => false

end Command

end Resin
