import Resin.Shell.Builtin
import Resin.Shell.Expand
import Resin.Shell.Show

/-!
# Running shell scripts

One step of a run is a function of the way to run smaller scripts. Since a script may go on without
end, a whole run has a budget.
-/

namespace Resin.Shell

/-! ## Redirections -/

/-- Opens a redirection, or says why it cannot be opened. -/
def openRedirect (go : Runner) (sh : Shell) : Redirect → Except Shell Shell
  | .here text verbatim =>
    let (sh, text) := if verbatim then (sh, text)
      else (wordText go .here text sh).map id String.toList
    let (channel, sh) := sh.newInput text
    .ok (sh.setChannel 0 (some channel))
  | .channel channel direction target =>
    let (sh, target) := wordText go .plain target sh
    if sh.stop.isSome then .error sh
    else match direction with
      | .read =>
        match sh.openInput target with
        | .ok (opened, sh) => .ok (sh.setChannel channel (some opened))
        | .error _ => .error (sh.complain ("cannot open " ++ target ++ ": No such file") 2)
      | .duplicate =>
        if target = "-" then .ok (sh.setChannel channel none)
        else match (Text.digits? target.toList).bind fun n => sh.channels.lookup n with
          | some opened => .ok (sh.setChannel channel (some opened))
          | none => .error (sh.complain (target ++ ": Bad file descriptor") 2)
      | .write | .overwrite | .append =>
        match sh.openOutput target direction with
        | .ok (opened, sh) => .ok (sh.setChannel channel (some opened))
        | .error reason => .error (sh.complain ("cannot create " ++ target ++ ": " ++ reason) 2)

/-- Does something with redirections, and closes them again. -/
def withRedirects (go : Runner) (redirects : List Redirect) (action : Shell → Shell) (sh : Shell) :
    Shell :=
  let after := match redirects.foldlM (openRedirect go) sh with
    | .ok opened => action opened
    | .error refused => refused
  { after with channels := sh.channels }

/-! ## Signals -/

/-- Sends a signal to processes that are given by their numbers. -/
def send (go : Runner) (signal : Nat) (numbers : List String) (sh : Shell) : Shell :=
  numbers.foldl (fun sh number =>
    match Text.digits? number.toList with
    | some n =>
      if n = sh.number ∧ sh.isApart then
        { sh with world := { sh.world with pending := sh.world.pending ++ [(n, signal)] } }
      else if n = sh.number then receive go signal sh
      else if (sh.jobs.lookup n).isSome then
        { sh with jobs := sh.jobs.map fun (job, status) =>
          (job, if job = n ∧ signal ≠ 0 then 128 + signal else status) }
      else sh.complain "No such process\n" 1
    | none => sh.complain ("Illegal number: " ++ number) 2) (sh.withStatus 0)

/-- Runs `kill`: a signal may be named first. -/
def kill (go : Runner) (args : List String) (sh : Shell) : Shell :=
  let usage := "Usage: kill [-s sigspec | -signum | -sigspec] [pid | job]... or\n"
    ++ "kill -l [exitstatus]"
  match args with
  | "-l" :: [] => (sh.write 1 ("\n".intercalate ("0" :: Signal.names) ++ "\n").toList).withStatus 0
  | "-l" :: code :: _ =>
    (sh.write 1 (Signal.name (count 0 [code] % 128) ++ "\n").toList).withStatus 0
  | "-s" :: name :: numbers =>
    match Signal.ofText? name with
    | some signal => send go signal numbers sh
    | none => sh.complain ("invalid signal number or name: " ++ name) 2
  | first :: numbers =>
    match first.toList with
    | '-' :: name =>
      if name = ['-'] then send go 15 numbers sh
      else match Signal.ofText? (String.ofList name) with
        | some signal => if numbers.isEmpty then sh.complain usage 2 else send go signal numbers sh
        | none => sh.complain ("Illegal option -" ++ String.ofList (name.take 1)) 2
    | _ => send go 15 args sh
  | [] => sh.complain usage 2

/-! ## Simple commands -/

/-- The assignments in front of a command, and its other words. -/
def leadingAssignments : List Raw → List (String × Raw) × List Raw
  | [] => ([], [])
  | word :: words =>
    match assignment? word with
    | some a =>
      let (rest, others) := leadingAssignments words
      (a :: rest, others)
    | none => ([], word :: words)

/-- Carries out assignments, and tells them with their values. -/
def assignWords (go : Runner) (assignments : List (String × Raw)) (sh : Shell) :
    Shell × List String :=
  inTurn (fun (name, word) sh =>
    let (sh, value) := wordText go .plain word sh
    (sh.assign name value, [name ++ "=" ++ value])) assignments sh

/-- Whether a script is run to find what a word stands for. -/
def hasOutput (word : Raw) : Bool :=
  (pieces .plain 0 word).any fun
    | .output _ _ _ => true
    | _ => false

/-- Tells what is about to be run, if an option asks for that. -/
def trace (words : List String) (sh : Shell) : Shell :=
  if sh.hasOption 'x' then
    sh.write 2 ((sh.bindings.lookup "PS4").getD "" ++ " ".intercalate words ++ "\n").toList
  else sh

/-- Runs a function of the shell. -/
def callFunction (go : Runner) (body : Script) (args : List String) (sh : Shell) : Shell :=
  let after := go body { sh with arguments := args, shadowed := some [], loops := 0 }
  let restored := after.restore (after.shadowed.getD [])
  { restored with
    arguments := sh.arguments, shadowed := sh.shadowed, loops := sh.loops
    stop := if after.stop = some .back then none else after.stop }

/-- Runs a file as a part of the script. -/
def runFile (go : Runner) (file : String) (sh : Shell) : Shell :=
  let paths := if file.toList.contains '/' then [file]
    else sh.searchDirectories.map (· ++ "/" ++ file)
  match paths.findSome? fun path => (sh.contents path).toOption.map fun text => (path, text) with
  | none =>
    if file.isEmpty then sh.withStatus 0
    else if file.toList.contains '/' then sh.fail ("cannot open " ++ file ++ ": No such file")
    else sh.fail (file ++ ": not found")
  | some (path, text) =>
    let after := runText go text { sh with current := some path }
    { after with stop := if after.stop = some .back then none else after.stop }

/-- The options that are set after the arguments in front of the others of a new shell, with `on`
being set before, and the other arguments; or what is wrong with them. -/
def shellOptions (on : List Char) : List String → Except String (List Char × List String)
  | [] => .ok (on, [])
  | arg :: rest =>
    let change (sign : Char) (letters : List Char) : Except String (List Char) :=
      match letters.find? fun c => !optionOrder.contains c && c != 'c' && c != 'l' with
      | some letter => .error ("Illegal option -" ++ letter.toString)
      | none => .ok (if sign = '-' then letters ++ on else on.filter (!letters.contains ·))
    match arg.toList with
    | sign :: letters =>
      if arg = "-" ∨ arg = "--" then .ok (on, rest)
      else if sign ≠ '-' ∧ sign ≠ '+' then .ok (on, arg :: rest)
      else if letters.contains 'o' then
        match rest with
        | [] => (change sign (letters.filter (· ≠ 'o'))).map fun on => (on, [])
        | name :: rest =>
          match optionNames.lookup name with
          | some letter => do
            shellOptions (← change sign (letter :: letters.filter (· ≠ 'o'))) rest
          | none => .error ("Illegal option -o " ++ name)
      else do shellOptions (← change sign letters) rest
    | [] => .ok (on, arg :: rest)

/-- Runs another shell, on a text, a file or the input. -/
def runShell (go : Runner) (args : List String) (sh : Shell) : Shell :=
  let refuse (complaint : String) : Shell :=
    (sh.write 2 ("sh: 0: " ++ complaint ++ "\n").toList).withStatus 2
  match shellOptions [] args with
  | .error complaint => refuse complaint
  | .ok (options, args) =>
    let fresh (name : String) (args : List String) : Shell :=
      let inner := start sh.world sh.channels name args sh.environment
      { inner with options := options.filter optionOrder.contains }
    let run (text : Raw) (inner : Shell) : Shell :=
      sh.afterProcess (runFarewell go (runText go text inner))
    match options.contains 'c', args with
    | true, text :: others => run text.toList (fresh (others.headD "sh") others.tail)
    | true, [] => refuse "-c requires an argument"
    | false, [] => run (sh.inputOf 0) ((fresh "sh" []).setInput 0 [])
    | false, file :: others =>
      if options.contains 's' then run (sh.inputOf 0) ((fresh "sh" args).setInput 0 [])
      else match sh.contents file with
        | .ok text => run text (fresh file others)
        | .error .isDirectory => run [] (fresh file others)
        | .error _ => refuse ("cannot open " ++ file ++ ": No such file")

/-- Runs a program. -/
def runProgram (go : Runner) (name : String) (args : List String) (sh : Shell) : Shell :=
  if name = "sleep" then sh.withStatus 0
  else
    let path := Text.ofOctets name.toList
    match if name.isEmpty then .error .nulByte
      else Command.findIn sh.world.tree sh.searchDirectories path with
    | .ok .shell => runShell go args sh
    | .ok .showFile => Show.run sh args
    | .ok .succeed => sh.withStatus 0
    | .ok .refuse => sh.withStatus 1
    | .error .permissionDenied => sh.complain (name ++ ": Permission denied") 126
    | .error .nulByte => sh.complain (name ++ ": Permission denied") 127
    | .error _ => sh.complain (name ++ ": not found") 127

/-- Runs the command that some fields name. -/
def call (go : Runner) : List String → Shell → Shell
  | [], sh => sh.withStatus 0
  | name :: args, sh =>
    match sh.functions.lookup name, name with
    | some body, _ => callFunction go body args sh
    | none, "eval" => under name (runText go (" ".intercalate args).toList) sh
    | none, "." => under name (runFile go (args.headD "")) sh
    | none, "kill" => under name (kill go args) sh
    | none, "command" =>
      match args with
      | "-v" :: name :: _ => (sh.withStatus 0).describe false name
      | "-V" :: name :: _ => (sh.withStatus 0).describe true name
      | _ => { call go args { sh with functions := [] } with functions := sh.functions }
    | none, "exec" =>
      let after := under name (call go args) sh
      if after.stop.isNone then after.exit after.status else after
    | none, _ =>
      if isBuiltin name then under name (fun sh => sh.runBuiltin name args) sh
      else runProgram go name args sh

/-- Runs a simple command. Assignments in front of it last as long as it does and are seen by other
processes; without a command they stay. -/
def runSimple (go : Runner) (words : List Raw) (redirects : List Redirect) (sh : Shell) : Shell :=
  let (assignments, others) := leadingAssignments words
  let (expanded, fields) := fields go others sh
  if expanded.stop.isSome then expanded
  else
    let (assigned, told) := assignWords go assignments expanded
    if assigned.stop.isSome then assigned
    else
      let traced := if words.isEmpty then assigned else trace (told ++ fields) assigned
      match fields with
      | [] =>
        let before := if words.any hasOutput then traced else traced.withStatus 0
        withRedirects go redirects id before
      | ["exec"] =>
        match redirects.foldlM (openRedirect go) traced with
        | .ok opened => opened.withStatus 0
        | .error refused => refused.exit 2
      | name :: args =>
        let names := assignments.map Prod.fst
        let values := names.map fun name => (name, expanded.bindings.lookup name)
        let given := { traced with exported := names ++ traced.exported }
        let after := withRedirects go redirects (call go (name :: args)) given
        if lastingCommands.contains name then
          if after.status = 2 ∧ redirects ≠ [] ∧ after.stop.isNone ∧ name ≠ "eval" ∧ name ≠ "."
          then after.exit 2 else after
        else
          let restored := after.restore values
          { restored with exported := restored.exported.filter fun name =>
            !names.contains name || traced.exported.contains name }

/-! ## Compound commands -/

/-- Runs a command of which the failure is no failure of the script. -/
def runCondition (go : Runner) (script : Script) (sh : Shell) : Shell :=
  { go script { sh with tested := true } with tested := sh.tested }

/-- Runs a branch; one that is empty succeeds. -/
def runBranch (go : Runner) (script : Script) (sh : Shell) : Shell :=
  match script with
  | .nothing => sh.withStatus 0
  | script => go script sh

/-- The shell after a turn of a loop, and whether there may be another turn. -/
def afterTurn (sh : Shell) : Shell × Bool :=
  match sh.stop with
  | none => (sh, true)
  | some (.leave levels) =>
    ({ sh with stop := if levels ≤ 1 then none else some (.leave (levels - 1)) }, false)
  | some (.next levels) =>
    if levels ≤ 1 then ({ sh with stop := none }, true)
    else ({ sh with stop := some (.next (levels - 1)) }, false)
  | some _ => (sh, false)

/-- Runs a loop for at most `n` turns; `status` is that of its last turn. -/
def runLoop (go : Runner) (wanted : Bool) (condition body : Script) :
    Nat → Nat → Shell → Shell
  | 0, _, sh => sh
  | n + 1, status, sh =>
    let tried := runCondition go condition sh
    if tried.stop.isSome then (afterTurn tried).1
    else if (tried.status == 0) == wanted then
      match afterTurn (go body tried) with
      | (after, true) => runLoop go wanted condition body n after.status after
      | (after, false) => after
    else tried.withStatus status

/-- Runs a loop over fields. -/
def runEach (go : Runner) (name : String) (body : Script) : List String → Shell → Shell
  | [], sh => sh
  | field :: others, sh =>
    match afterTurn (go body (sh.assign name field)) with
    | (after, true) => runEach go name body others after
    | (after, false) => after

/-- Does something inside a loop more. -/
def inLoop (action : Shell → Shell) (sh : Shell) : Shell :=
  { action { sh with loops := sh.loops + 1 } with loops := sh.loops }

/-- Runs two commands of which the second reads what the first writes. Both run apart. -/
def runPipe (go : Runner) (source target : Script) (sh : Shell) : Shell :=
  let (after, text) := capture go (go source) sh
  if after.stop.isSome then after
  else
    let (channel, inner) := after.newInput text
    let ended := apart go (fun sh => go target (sh.setChannel 0 (some channel)))
      (inner.withStatus sh.status)
    { ended with channels := sh.channels }

/-- Whether one of some patterns matches a text. -/
def matchesOne (go : Runner) (text : String) : List Raw → Shell → Shell × Bool
  | [], sh => (sh, false)
  | pattern :: others, sh =>
    let (sh, bits) := expand go .plain pattern sh
    if Wildcard.matchesAll (Wildcard.ofText 0 (Bit.chars bits)) text.toList then (sh, true)
    else matchesOne go text others sh

/-- Runs the first of several cases that a text fits. -/
def runChoice (go : Runner) (text : String) : Script → Shell → Shell
  | .choice _ patterns yes no, sh =>
    match matchesOne go text patterns sh with
    | (sh, true) => runBranch go yes sh
    | (sh, false) => runChoice go text no sh
  | script, sh => runBranch go script sh

/-- Runs a script, given the way to run what stands in it; loops have a budget of turns. -/
def step (turns : Nat) (go : Runner) (script : Script) (sh : Shell) : Shell :=
  match script with
  | .nothing => sh
  | .simple words redirects => (runSimple go words redirects sh).checked
  | .redirected body redirects => withRedirects go redirects (go body) sh
  | .inOrder first second => go second (go first sh)
  | .both first second =>
    let after := runCondition go first sh
    if after.status = 0 then go second after else after
  | .either first second =>
    let after := runCondition go first sh
    if after.status = 0 then after else go second after
  | .negation body =>
    let after := runCondition go body sh
    if after.stop.isSome then after else after.withStatus (if after.status = 0 then 1 else 0)
  | .pipe source target => (runPipe go source target sh).checked
  | .background body =>
    let ended := apart go (fun sh => go body (sh.setChannel 0 (some .nowhere))) sh
    let number := ended.world.processes + 1
    { ended with
      world := { ended.world with processes := number }
      channels := sh.channels, jobs := (number, ended.status) :: sh.jobs, status := 0 }
  | .subshell body => (apart go (go body) sh).checked
  | .branch condition yes no =>
    let after := runCondition go condition sh
    if after.stop.isSome then after
    else runBranch go (if after.status = 0 then yes else no) after
  | .loop wanted condition body => inLoop (runLoop go wanted condition body turns 0) sh
  | .each name words body =>
    let (sh, fields) := match words with
      | some words => fields go words sh
      | none => (sh, sh.arguments)
    if sh.stop.isSome then sh else inLoop (runEach go name body fields) (sh.withStatus 0)
  | .choice word patterns yes no =>
    let (sh, text) := wordText go .plain word sh
    if sh.stop.isSome then sh else runChoice go text (.choice word patterns yes no) sh
  | .atLine line body => go body { sh with line }
  | .definition name body =>
    { sh with functions := (name, body) :: sh.functions, status := 0 }

/-- Runs a script with a budget. A shell that has stopped does nothing more. -/
def runUpTo : Nat → Script → Shell → Shell
  | 0, _, sh => sh.exit 1
  | n + 1, script, sh => if sh.stop.isSome then sh else step n (runUpTo n) script sh

/-- The budget of a run. -/
def budget : Nat := 100000

/-- The shell after a script has been run on an input, among files and with variables that it is
given. -/
def run (tree : FileTree) (environment : List (String × String)) (script input : String) : Shell :=
  let go := runUpTo budget
  runFarewell go (runText go (Text.octets script) (ofScript tree environment script input))

end Resin.Shell
