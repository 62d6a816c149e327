import Resin.Host.Search
import Resin.Shell.Run

/-!
# Runs of commands

What a command does with a script. The input of a run may come through a pipe.
-/

namespace Resin

/-- How a run of a command ended, what it wrote, and how many bytes of its input it read. -/
structure Run where
  ending : Ending
  output : String
  errors : String
  consumed : Nat
deriving DecidableEq, Repr, Inhabited

namespace Run

/-- The number of bytes in a page of a pipe. -/
def pipePage : Nat := 4096

/-- The number of bytes that a pipe holds. -/
def pipeCapacity : Nat := 16 * pipePage

/-- Whether all of an input goes through a pipe to a run. What the run does not read has to stay in
the pipe, where only pages that are read to their end make room. -/
def takes (run : Run) (input : String) : Bool :=
  Text.byteLength input.toList ≤ pipeCapacity + run.consumed / pipePage * pipePage

end Run

namespace Command

/-- A run of a command on a script and an input, among files and with variables that it is given. -/
def run (tree : FileTree) (environment : List (String × String)) (script input : String) :
    Command → Run
  | .shell =>
    let sh := Shell.run tree environment script input
    let left := sh.world.inputs.headD []
    ⟨sh.ending, sh.output, sh.errors, Text.byteLength input.toList - left.length⟩
  | .showFile => ⟨.exited 0, script, "", 0⟩
  | .succeed => ⟨.exited 0, "", "", 0⟩
  | .refuse => ⟨.exited 1, "", "", 0⟩

/-- The run of a command that gets its input through a pipe. -/
def runPiped (tree : FileTree) (script input : String) (command : Command) :
    Except SystemError Run :=
  let run := command.run tree Layout.environment script input
  if run.takes input then .ok run else .error .brokenPipe

end Command

end Resin
