import Resin.Script.Preamble
import Resin.Script.Stmt

/-!
# Compiling

From the text of an Epoxy program to the text of a JavaScript program, which this library calls a
script. `compile` gives the code with the preambles it relies on, and `compileScript` puts these in
front of it.
-/

namespace Resin

/-- The script of a source, without its preambles. -/
def compile (source : String) : Except Error Fragment := do
  let program ← parseProgram source
  programScript program

/-- The whole script of a source. -/
def compileScript (source : String) : Except Error String := do
  let code ← compile source
  pure (Preamble.attach code)

end Resin
