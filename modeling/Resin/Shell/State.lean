import Resin.Host.Ending
import Resin.Host.Layout
import Resin.Shell.Script
import Resin.Shell.Signal
import Resin.Text.Decode
import Resin.Text.Integer

/-!
# The state of a shell

What a shell knows while it runs a script. All text in it is held byte by byte. What several shells
see together, above all the files, is the world; the first two texts of the world are the output and
the errors of the whole run.
-/

namespace Resin

namespace Shell

/-- Why a shell does not go on with the next command. Loops are left, or gone on with, by the
number of their levels. -/
inductive Stop where
  | exit
  | killed (signal : Nat)
  | leave (levels : Nat)
  | next (levels : Nat)
  | back
deriving DecidableEq, Repr, Inhabited

/-- What a channel leads to: an input or a text of the world, a file, a directory, or nothing. -/
inductive Channel where
  | input (index : Nat)
  | text (index : Nat)
  | file (place : Route)
  | directory
  | nowhere
deriving DecidableEq, Repr, Inhabited

/-- What shells see together: the files, what is left of each input, what has been written, the
number of the newest process, and the signals that parts of shells have sent to their shells. -/
structure World where
  tree : FileTree
  inputs : List (List Char)
  texts : List String
  processes : Nat
  pending : List (Nat × Nat)
deriving Inhabited

end Shell

/-- A shell at work. -/
structure Shell where
  world : Shell.World
  /-- The number of its process. -/
  number : Nat
  /-- Whether this is a part of a shell that runs apart from it. -/
  isApart : Bool
  /-- The line that is being carried out, and the command of the shell in it, for what it has to
  say. -/
  line : Nat
  current : Option String
  /-- Whether the shell goes on after a fault of that command. -/
  survives : Bool
  /-- The name and the arguments that it was started with. -/
  name : String
  arguments : List String
  bindings : List (String × String)
  /-- The variables that other processes are given. -/
  exported : List String
  /-- The variables that keep their values. -/
  fixed : List String
  /-- What variables of the current function were before it, if it is one. -/
  shadowed : Option (List (String × Option String))
  functions : List (String × Shell.Script)
  aliases : List (Shell.Raw × Shell.Raw)
  /-- What is run when a signal arrives. -/
  traps : List (Nat × Shell.Raw)
  options : List Char
  channels : List (Nat × Shell.Channel)
  mask : Nat
  /-- The processes in the background and how they ended, the newest first. -/
  jobs : List (Nat × Nat)
  /-- The number of loops around the current command. -/
  loops : Nat
  /-- How far the current argument has been read for options. -/
  optionOffset : Nat
  status : Nat
  stop : Option Shell.Stop
  /-- Whether the current command is a condition, which may fail. -/
  tested : Bool
deriving Inhabited

namespace Shell

/-- The file of the script. -/
def scriptName : String := "/tmp/epoxy-1-0.cjs"

/-- What the working directory at the start is called. -/
def directoryName : String := "/tmp/work"

/-- The variables that a shell sets itself. -/
def ownBindings : List (String × String) :=
  [("IFS", " \t\n"), ("OPTIND", "1"), ("PPID", "1"), ("PS1", "# "), ("PS2", "> "), ("PS4", "+ "),
    ("PWD", directoryName)]

/-- A new shell with a name, arguments and the variables that it is given. -/
def start (world : World) (channels : List (Nat × Channel)) (name : String) (arguments : List String)
    (environment : List (String × String)) : Shell :=
  { world := { world with processes := world.processes + 1 }, number := world.processes + 1
    isApart := false, line := 1, current := none, survives := false
    name, arguments, channels
    bindings := environment ++ ownBindings, exported := environment.map Prod.fst
    fixed := [], shadowed := none, functions := [], aliases := [], traps := [], options := []
    mask := 18, jobs := [], loops := 0, optionOffset := 0
    status := 0, stop := none, tested := false }

/-- The bytes of octets. -/
def bytes (text : List Char) : ByteArray :=
  ⟨(text.map fun c => c.toNat.toUInt8).toArray⟩

/-- The shell that is about to run a script on an input. -/
def ofScript (tree : FileTree) (environment : List (String × String)) (script input : String) :
    Shell :=
  let tree := tree.put (Layout.place scriptName) (.file script.toUTF8)
  let tree := { tree with links := (Layout.place directoryName, tree.here) :: tree.links }
  let texts := environment.map fun (name, value) => (name, String.ofList (Text.octets value))
  start ⟨tree, [Text.octets input], ["", ""], 1, []⟩ [(0, .input 0), (1, .text 0), (2, .text 1)]
    scriptName [] texts

/-! ## Variables -/

/-- The shell with the status of its last command. -/
def withStatus (sh : Shell) (status : Nat) : Shell := { sh with status }

/-- The shell that ends with a status. -/
def exit (sh : Shell) (status : Nat) : Shell := { sh with status, stop := some .exit }

/-- Whether an option is set. -/
def hasOption (sh : Shell) (option : Char) : Bool := sh.options.contains option

/-- The options in the order in which they are told. -/
def optionOrder : List Char :=
  ['u', 'b', 'a', 'C', 'E', 'V', 'v', 'x', 's', 'n', 'm', 'i', 'I', 'f', 'e']

/-- The value of a parameter, if it is set. -/
def value? (sh : Shell) (name : String) : Option String :=
  match name with
  | "$" => some (toString sh.number)
  | "?" => some (toString sh.status)
  | "#" => some (toString sh.arguments.length)
  | "-" => some (String.ofList (optionOrder.filter sh.hasOption))
  | "!" => sh.jobs.head?.map fun (number, _) => toString number
  | "@" | "*" => if sh.arguments.isEmpty then none else some (" ".intercalate sh.arguments)
  | "0" => some sh.name
  | _ =>
    match Text.digits? name.toList with
    | some n => sh.arguments[n - 1]?
    | none => sh.bindings.lookup name

/-- The shell with a variable set, whatever it was before. -/
def bind (sh : Shell) (name value : String) : Shell :=
  { sh with
    bindings := (name, value) :: sh.bindings.filter (·.1 ≠ name)
    optionOffset := if name = "OPTIND" then 0 else sh.optionOffset
    exported := if sh.hasOption 'a' then name :: sh.exported else sh.exported }

/-- The shell without a variable. -/
def forget (sh : Shell) (name : String) : Shell :=
  { sh with
    bindings := sh.bindings.filter (·.1 ≠ name)
    exported := sh.exported.filter (· ≠ name) }

/-- The shell with variables set back to the values that they had, if they had one. -/
def restore (sh : Shell) (values : List (String × Option String)) : Shell :=
  values.foldl (fun sh (name, value) => match value with
    | some value => sh.bind name value
    | none => sh.forget name) sh

/-- The characters that divide fields. -/
def separators (sh : Shell) : List Char :=
  ((sh.bindings.lookup "IFS").getD " \t\n").toList

/-- The variables that a new process is given. -/
def environment (sh : Shell) : List (String × String) :=
  sh.bindings.filter fun (name, _) => sh.exported.contains name

/-- The directories in which the shell looks up commands. -/
def searchDirectories (sh : Shell) : List String :=
  match sh.bindings.lookup "PATH" with
  | none => []
  | some path =>
    let parts := path.toList.foldr (fun c parts => match parts with
      | [] => [[c]]
      | part :: others => if c = ':' then [] :: parts else (c :: part) :: others) [[]]
    parts.map fun part => if part.isEmpty then "." else Text.ofOctets part

/-! ## Channels -/

/-- The text of the world with a number. -/
def textAt (sh : Shell) (index : Nat) : String := sh.world.texts.getD index ""

/-- What is left of the input of a channel. -/
def inputOf (sh : Shell) (channel : Nat) : List Char :=
  match sh.channels.lookup channel with
  | some (.input index) => sh.world.inputs.getD index []
  | _ => []

/-- Sets what is left of the input of a channel. -/
def setInput (sh : Shell) (channel : Nat) (rest : List Char) : Shell :=
  match sh.channels.lookup channel with
  | some (.input index) =>
    { sh with world := { sh.world with inputs := sh.world.inputs.set index rest } }
  | _ => sh

/-- Writes to a channel. -/
def write (sh : Shell) (channel : Nat) (text : List Char) : Shell :=
  match sh.channels.lookup channel with
  | some (.text index) =>
    { sh with world :=
      { sh.world with texts := sh.world.texts.modify index (· ++ String.ofList text) } }
  | some (.file place) =>
    let before := match sh.world.tree.entry? place with
      | some (.file bytes) => bytes
      | _ => .empty
    { sh with world :=
      { sh.world with tree := sh.world.tree.put place (.file (before ++ bytes text)) } }
  | _ => sh

/-- Sets where a channel leads. -/
def setChannel (sh : Shell) (channel : Nat) (target : Option Channel) : Shell :=
  let others := sh.channels.filter (·.1 ≠ channel)
  { sh with channels := match target with
    | some target => (channel, target) :: others
    | none => others }

/-- A new input, and the shell with it. -/
def newInput (sh : Shell) (text : List Char) : Channel × Shell :=
  (.input sh.world.inputs.length,
    { sh with world := { sh.world with inputs := sh.world.inputs ++ [text] } })

/-- The number of a new text, and the shell with it. -/
def newText (sh : Shell) : Nat × Shell :=
  (sh.world.texts.length, { sh with world := { sh.world with texts := sh.world.texts ++ [""] } })

/-! ## Files -/

/-- What is in a file. -/
def contents (sh : Shell) (file : String) : Except SystemError (List Char) := do
  let bytes ← sh.world.tree.readBytes (Text.ofOctets file.toList)
  return bytes.toList.map fun b => Char.ofNat b.toNat

/-- Opens a file to be read. -/
def openInput (sh : Shell) (file : String) : Except SystemError (Channel × Shell) :=
  if file = "/dev/stdin" then .ok ((sh.channels.lookup 0).getD .nowhere, sh)
  else match sh.contents file with
    | .ok text => .ok (sh.newInput text)
    | .error .isDirectory => .ok (.directory, sh)
    | .error e => .error e

/-- Opens a file to be written, which may be after what is in it. -/
def openOutput (sh : Shell) (file : String) (direction : Direction) :
    Except String (Channel × Shell) := do
  if file = "/dev/stdout" then return ((sh.channels.lookup 1).getD .nowhere, sh)
  if file = "/dev/stderr" then return ((sh.channels.lookup 2).getD .nowhere, sh)
  let place ← match sh.world.tree.resolve (Text.ofOctets file.toList) with
    | .ok place => .ok place
    | .error .notFound | .error .notDirectory => .error "Directory nonexistent"
    | .error e => .error e.message
  if Layout.isDevice place then return (.nowhere, sh)
  match sh.world.tree.entry? place with
  | some .directory => .error "Is a directory"
  | some (.program _) => .error "Text file busy"
  | some (.file bytes) =>
    if direction = .write ∧ sh.hasOption 'C' then .error "File exists"
    let kept := if direction = .append then bytes else .empty
    return (.file place,
      { sh with world := { sh.world with tree := sh.world.tree.put place (.file kept) } })
  | none =>
    return (.file place,
      { sh with world := { sh.world with tree := sh.world.tree.put place (.file .empty) } })

/-! ## Endings -/

/-- The shell that says what is wrong with a command. -/
def complain (sh : Shell) (complaint : String) (status : Nat) : Shell :=
  let command := match sh.current with
    | some name => name ++ ": "
    | none => ""
  let place := sh.name ++ ": " ++ toString sh.line ++ ": "
  (sh.write 2 (place ++ command ++ complaint ++ "\n").toList).withStatus status

/-- The commands that assignments in front of them outlive, and of which a fault ends the shell. -/
def lastingCommands : List String :=
  [".", ":", "break", "continue", "eval", "exec", "exit", "export", "local", "readonly", "return",
    "set", "shift", "times", "trap", "unset"]

/-- Does something under the name of a command of the shell. -/
def under (name : String) (action : Shell → Shell) (sh : Shell) : Shell :=
  let inner := { sh with current := some name, survives := !lastingCommands.contains name }
  { action inner with current := sh.current, survives := sh.survives }

/-- The shell that says what is wrong and ends, unless a command is at work that can fail. -/
def fail (sh : Shell) (complaint : String) : Shell :=
  let complained := sh.complain complaint 2
  if sh.survives then complained else complained.exit 2

/-- The shell with a variable set. One that keeps its value ends the shell. -/
def assign (sh : Shell) (name value : String) : Shell :=
  if sh.fixed.contains name then sh.fail (name ++ ": is read only") else sh.bind name value

/-- The shell after a command whose failure ends a strict script. -/
def checked (sh : Shell) : Shell :=
  if sh.hasOption 'e' && !sh.tested && sh.status != 0 && sh.stop.isNone then sh.exit sh.status
  else sh

/-- The signal that ended a shell, if one did. -/
def signal? (sh : Shell) : Option Nat :=
  match sh.stop with
  | some (.killed signal) => some signal
  | _ => none

/-- The world after another shell, in the outer shell's own directory. -/
def withWorld (outer inner : Shell) : Shell :=
  { outer with world :=
    { inner.world with tree := { inner.world.tree with here := outer.world.tree.here } } }

/-- What is left of a part of a shell that ran apart: the world, and its status. A signal to it ends
the outer shell too. -/
def rejoin (outer inner : Shell) : Shell :=
  { outer.withWorld inner with
    status := inner.status
    stop := if inner.signal?.isSome then inner.stop else outer.stop }

/-- What is left of another process: the world, and its status, which tells of a signal. -/
def afterProcess (outer inner : Shell) : Shell :=
  let after := outer.withWorld inner
  match inner.signal? with
  | none => after.withStatus inner.status
  | some signal =>
    let obituary := Signal.obituary signal
    let told := if obituary.isEmpty then after else after.write 2 (obituary ++ "\n").toList
    told.withStatus (128 + signal)

/-- What the whole run has written. -/
def output (sh : Shell) : String := Text.ofOctets (sh.textAt 0).toList

/-- What the whole run has written to the channel for errors. -/
def errors (sh : Shell) : String := Text.ofOctets (sh.textAt 1).toList

/-- How the run ended. -/
def ending (sh : Shell) : Ending :=
  if sh.signal?.isSome then .killed else .exited sh.status

end Shell

end Resin
