import Resin.Compile
import Resin.Host.Failure
import Resin.Host.Run
import Resin.Text.Blank

/-!
# Command line

The arguments of the program are read into a request, and the request is answered from the
contents of the file that it names. Reading the file itself is left to the caller.
-/

namespace Resin

/-- The settings of a run: the host that runs the script, and whether the script is printed
instead. -/
structure Settings where
  host : String
  emit : Bool
deriving DecidableEq, Repr, Inhabited

/-- The settings for a host named by the environment; a name of blanks only counts as none. -/
def Settings.ofHost (host : Option String) : Settings :=
  match host with
  | some name => if (Text.trim name.toList).isEmpty then ⟨"node", false⟩ else ⟨name, false⟩
  | none => ⟨"node", false⟩

/-- What the arguments ask for. -/
inductive Request where
  | help
  | usage
  | unsuitable
  | compile (file : String) (emit : Bool)
deriving DecidableEq, Repr, Inhabited

namespace Request

/-- Reads the arguments from left to right: a call for help or a second file ends it. -/
def ofArgsFrom (file : Option String) (emit : Bool) : List String → Request
  | [] =>
    match file with
    | none => .usage
    | some file => if Path.extension? file = some "epx" then .compile file emit else .unsuitable
  | arg :: args =>
    if arg = "--emit" then ofArgsFrom file true args
    else if arg = "-h" ∨ arg = "--help" then .help
    else match file with
      | none => ofArgsFrom (some arg) emit args
      | some _ => .usage

/-- The request that arguments make. -/
def ofArgs (args : List String) : Request :=
  ofArgsFrom none false args

/-- The file that a request reads, if any. -/
def file? : Request → Option String
  | .compile file _ => some file
  | .help | .usage | .unsuitable => none

end Request

/-- What goes to the error channel: a text, or a report on the source. -/
inductive Complaint where
  | text (text : String)
  | diagnostic (diagnostic : Diagnostic)
deriving DecidableEq, Repr, Inhabited

/-- The answer to a request: an exit code and what is written. -/
structure Response where
  code : Nat
  output : String
  complaint : Complaint
deriving DecidableEq, Repr, Inhabited

namespace Response

/-- The line that tells how the program is used. -/
def usageLine : String := "usage: epoxy [--emit] <file.epx>\n"

/-- An answer that is only a line of complaint. -/
def refusal (line : String) : Response := ⟨1, "", .text (line ++ "\n")⟩

/-- The exit code for an ending: a signal counts as a failure. -/
def exitCode : Ending → Nat
  | .exited code => if code < 256 then code else 1
  | .killed => 1

/-- The variables that a host is given: those of every process, and the one that names the host. -/
def environment (host : Option String) : List (String × String) :=
  (host.map fun name => ("EPOXY_HOST", name)).toList ++ Layout.environment

/-- The answer for a script: it is printed, or run by the host with an empty input. -/
def ofScript (tree : FileTree) (host : Option String) (emit : Bool) (script : String) : Response :=
  let settings := { Settings.ofHost host with emit }
  if settings.emit then ⟨0, script, .text ""⟩
  else match Command.find tree settings.host with
    | .error e => refusal (Failure.host settings.host e.text).text
    | .ok command =>
      let run := command.run tree (environment host) script ""
      ⟨exitCode run.ending, run.output, .text run.errors⟩

/-- The answer to a request, given the contents of the file that it reads. -/
def ofRequest (tree : FileTree) (host : Option String) (contents : Except SystemError String) :
    Request → Response
  | .help => ⟨0, usageLine, .text ""⟩
  | .usage => ⟨1, "", .text usageLine⟩
  | .unsuitable => refusal "Only .epx files allowed"
  | .compile file emit =>
    match contents with
    | .error e => refusal ("could not read `" ++ file ++ "`: " ++ e.text)
    | .ok source =>
      match compileScript source with
      | .error e => ⟨1, "", .diagnostic e.diagnostic⟩
      | .ok script => ofScript tree host emit script

/-- The answer to arguments in a working directory. -/
def ofArgs (tree : FileTree) (host : Option String) (args : List String) : Response :=
  let request := Request.ofArgs args
  let contents := match request.file? with
    | some file => tree.readText file
    | none => .ok ""
  ofRequest tree host contents request

end Response

end Resin
