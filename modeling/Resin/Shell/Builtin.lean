import Resin.Host.Search
import Resin.Shell.Print
import Resin.Shell.Test
import Resin.Shell.Word

/-!
# Commands of the shell

The commands that a shell carries out itself without running anything else.
-/

namespace Resin.Shell

/-! ## Reading -/

/-- The first line of an input, the rest, and whether the line is complete. Unless it is read as it
is, a backslash escapes the character behind it, and the end of a line vanishes with it. -/
def firstLine (asIs : Bool) : List Char → List (Char × Bool) × List Char × Bool
  | [] => ([], [], false)
  | c :: cs =>
    if c = '\n' then ([], cs, true)
    else if c = '\\' ∧ !asIs then
      match cs with
      | [] => ([], [], false)
      | d :: rest =>
        let (line, left) := firstLine asIs rest
        (if d = '\n' then line else (d, true) :: line, left)
    else
      let (line, left) := firstLine asIs cs
      (if c = '\x00' then line else (c, false) :: line, left)

/-- The values of variables that share a line: a field each, and the last has the rest. A separator
that is not blank at the end of the rest is dropped if it is the only one in it. -/
def shareLine (separators : List Char) (line : List (Char × Bool)) :
    List String → List (String × String)
  | [] => []
  | name :: names =>
    let divides (c : Char × Bool) : Bool := !c.2 && separators.contains c.1
    let isSoft (c : Char × Bool) : Bool := divides c && [' ', '\t', '\n'].contains c.1
    let text (cs : List (Char × Bool)) : String := String.ofList (cs.map Prod.fst)
    let line := line.dropWhile isSoft
    let field := line.takeWhile (!divides ·)
    let rest := (line.drop field.length).dropWhile isSoft
    let rest := if rest.head?.any (fun c => divides c && !isSoft c) then rest.tail else rest
    let after := rest.dropWhile isSoft
    if names.isEmpty then
      if after.isEmpty then [(name, text field)]
      else [(name, text (line.reverse.dropWhile isSoft).reverse)]
    else (name, text field) :: shareLine separators rest names

/-- Reads a line of the input into variables. It fails if the input ends before the line does. -/
def readLine (sh : Shell) (asIs : Bool) (names : List String) : Shell :=
  let (line, rest, complete) := firstLine asIs (sh.inputOf 0)
  let after := (sh.setInput 0 rest).withStatus (if complete then 0 else 1)
  (shareLine sh.separators line names).foldl (fun sh (name, value) => sh.assign name value) after

/-- Reads the arguments of `read`. -/
def readArgs (sh : Shell) (asIs : Bool) : List String → Shell
  | "-r" :: rest => readArgs sh true rest
  | "-p" :: _ :: rest => readArgs sh asIs rest
  | [] => sh.complain "arg count" 2
  | names =>
    match names.find? (!isName ·.toList) with
    | some name => sh.complain (name ++ ": bad variable name") 2
    | none => sh.readLine asIs names

/-! ## Variables and options -/

/-- The options by their long names. -/
def optionNames : List (String × Char) :=
  [("allexport", 'a'), ("errexit", 'e'), ("noclobber", 'C'), ("noexec", 'n'), ("noglob", 'f'),
    ("nounset", 'u'), ("verbose", 'v'), ("xtrace", 'x')]

/-- Sets or clears options. -/
def setOptions (sh : Shell) (on : Bool) (letters : List Char) : Shell :=
  match letters.find? (!optionOrder.contains ·) with
  | some letter => sh.fail ("Illegal option -" ++ letter.toString)
  | none =>
    let others := sh.options.filter (!letters.contains ·)
    { sh with options := if on then letters ++ others else others }

/-- Sets or clears an option that is given by its long name. -/
def setNamedOption (sh : Shell) (on : Bool) (name : String) : Shell :=
  match optionNames.lookup name with
  | some letter => sh.setOptions on [letter]
  | none => sh.fail ("Illegal option -o " ++ name)

/-- Sets options and arguments. -/
def setArgs (sh : Shell) : List String → Shell
  | [] => sh
  | [arg] =>
    match arg.toList with
    | '-' :: '-' :: [] => { sh with arguments := [] }
    | '-' :: letters => sh.setOptions true letters
    | '+' :: letters => sh.setOptions false letters
    | _ => { sh with arguments := [arg] }
  | arg :: next :: rest =>
    match arg.toList with
    | '-' :: '-' :: [] => { sh with arguments := next :: rest }
    | '-' :: 'o' :: [] => setArgs (sh.setNamedOption true next) rest
    | '+' :: 'o' :: [] => setArgs (sh.setNamedOption false next) rest
    | '-' :: letters => setArgs (sh.setOptions true letters) (next :: rest)
    | '+' :: letters => setArgs (sh.setOptions false letters) (next :: rest)
    | _ => { sh with arguments := arg :: next :: rest }

/-- The name and the value of an assignment that is given as a field. -/
def nameAndValue (field : String) : String × Option String :=
  let name := field.toList.takeWhile (· ≠ '=')
  let rest := field.toList.drop name.length
  (String.ofList name, if rest.isEmpty then none else some (String.ofList rest.tail))

/-- Assigns to those of some fields that give a value, and tells their names. -/
def assignAll (sh : Shell) (fields : List String) : Shell × List String :=
  let pairs := fields.map nameAndValue
  match pairs.find? fun (name, _) => !isName name.toList with
  | some (name, _) => (sh.fail (name ++ ": bad variable name"), [])
  | none => (pairs.foldl (fun sh (name, value) => match value with
    | some value => sh.assign name value
    | none => sh) sh, pairs.map Prod.fst)

/-- Makes variables known to the current function only. -/
def shadow (sh : Shell) (fields : List String) : Shell :=
  match sh.shadowed with
  | none => sh.fail "not in a function"
  | some before =>
    let values := fields.map fun field =>
      let name := (nameAndValue field).1
      (name, sh.bindings.lookup name)
    ({ sh with shadowed := some (values ++ before), status := 0 }.assignAll fields).1

/-- Forgets variables or functions. -/
def unset (sh : Shell) : List String → Shell
  | "-f" :: names => { sh with functions := sh.functions.filter (!names.contains ·.1), status := 0 }
  | "-v" :: names | names =>
    match names.find? sh.fixed.contains, names.find? (!isName ·.toList) with
    | some name, _ => sh.fail (name ++ ": is read only")
    | none, some name => sh.fail (name ++ ": bad variable name")
    | none, none => (names.foldl forget sh).withStatus 0

/-- A text in quotes, so that it can be read again. -/
def quoted (text : List Char) : String :=
  let inside := text.flatMap fun c =>
    if c = '\x27' then ['\x27', '\x22', '\x27', '\x22', '\x27'] else [c]
  "\x27" ++ String.ofList inside ++ "\x27"

/-- Tells or sets words that stand for a text. -/
def setAliases (sh : Shell) (args : List String) : Shell :=
  let line (pair : Raw × Raw) : List Char :=
    pair.1 ++ '=' :: (quoted pair.2 ++ "\n").toList
  if args.isEmpty then
    (sh.write 1 ((sh.aliases.mergeSort fun a b => !(b.1 < a.1)).flatMap line)).withStatus 0
  else
    args.foldl (fun sh arg => match nameAndValue arg with
      | (name, some value) =>
        let others := sh.aliases.filter (·.1 ≠ name.toList)
        { sh with aliases := (name.toList, value.toList) :: others }
      | (name, none) =>
        match sh.aliases.lookup name.toList with
        | some text => sh.write 1 (line (name.toList, text))
        | none => (sh.write 2 ("alias: " ++ name ++ " not found\n").toList).withStatus 1)
      (sh.withStatus 0)

/-- Forgets words that stand for a text. -/
def dropAliases (sh : Shell) (args : List String) : Shell :=
  if args = ["-a"] then { sh with aliases := [], status := 0 }
  else args.foldl (fun sh name =>
    if (sh.aliases.lookup name.toList).isSome then
      { sh with aliases := sh.aliases.filter (·.1 ≠ name.toList) }
    else (sh.write 2 ("unalias: " ++ name ++ " not found\n").toList).withStatus 1) (sh.withStatus 0)

/-! ## Directories -/

/-- A full path without parts that name nothing or lead up. -/
def normalized (path : List Char) : String :=
  let parts := (Path.parts path).foldl (fun parts part =>
    if Path.isIdle part then parts
    else if part = ['.', '.'] then parts.dropLast
    else parts ++ [part]) []
  "/" ++ "/".intercalate (parts.map String.ofList)

/-- Changes the working directory. -/
def changeDirectory (sh : Shell) (args : List String) : Shell :=
  let held (name : String) : String := (sh.bindings.lookup name).getD ""
  let target := match args with
    | [] => held "HOME"
    | "-" :: _ => held "OLDPWD"
    | path :: _ => path
  let tree := sh.world.tree
  match tree.resolve (Text.ofOctets target.toList) with
  | .ok place =>
    match tree.entry? place with
    | some .directory =>
      let path := if target.toList.head? = some '/' then target.toList
        else (held "PWD").toList ++ '/' :: target.toList
      let moved := { sh with world := { sh.world with tree := { tree with here := place } } }
      let after := (moved.bind "OLDPWD" (held "PWD")).bind "PWD" (normalized path)
      let told := if args.head? = some "-" then after.write 1 (target ++ "\n").toList else after
      told.withStatus 0
    | _ => sh.complain ("can\x27t cd to " ++ target) 2
  | .error _ =>
    if target.isEmpty then sh.withStatus 0 else sh.complain ("can\x27t cd to " ++ target) 2

/-- The working directory. -/
def directoryText (sh : Shell) (followed : Bool) : String :=
  let here := sh.world.tree.here
  if followed ∧ !here.contains [] then
    "/" ++ "/".intercalate (here.map fun name => String.ofList (Text.octets (String.ofList name)))
  else (sh.bindings.lookup "PWD").getD ""

/-! ## Arguments -/

/-- A number that is given as an argument, if it is one. -/
def count (default : Nat) : List String → Nat
  | [] => default
  | arg :: _ => (Text.digits? arg.toList).getD default

/-- The next option of some arguments: the letter, its value, the next argument and how far the
current one has been read. A letter that is not known, or has no value, is a question mark or a
colon, with what is said of it. -/
structure NextOption where
  letter : Char
  value : Option String
  next : Nat
  offset : Nat
  complaint : String
deriving DecidableEq, Repr, Inhabited

/-- Reads the next option, `next` being the number of the next argument, from one on. -/
def nextOption? (known : List Char) (args : List String) (next offset : Nat) :
    NextOption ⊕ Nat :=
  let silent := known.head? = some ':'
  let current := (args.getD (next - 2) "").toList
  let inside := 1 < next ∧ 0 < offset ∧ offset < current.length
  let word := if inside then current else (args.getD (next - 1) "").toList
  let position := if inside then offset else 1
  let next := if inside then next else next + 1
  if !inside ∧ (word.head? ≠ some '-' ∨ word.length < 2) then .inr (next - 1)
  else if !inside ∧ word = ['-', '-'] then .inr next
  else
    let letter := word.getD position '?'
    let offset := if position + 1 < word.length then position + 1 else 0
    match known.findIdx? (· == letter) with
    | none => .inl ⟨'?', if silent then some letter.toString else none, next, offset,
        if silent then "" else "Illegal option -" ++ letter.toString ++ "\n"⟩
    | some index =>
      if known[index + 1]? ≠ some ':' then .inl ⟨letter, some "", next, offset, ""⟩
      else if 0 < offset then
        .inl ⟨letter, some (String.ofList (word.drop offset)), next, 0, ""⟩
      else match args[next - 1]? with
        | some value => .inl ⟨letter, some value, next + 1, 0, ""⟩
        | none => .inl ⟨if silent then ':' else '?', if silent then some letter.toString else none,
            next, 0, if silent then "" else "No arg for -" ++ letter.toString ++ " option\n"⟩

/-- Reads an option of the arguments into a variable. -/
def getOption (sh : Shell) (known name : String) (args : List String) : Shell :=
  let args := if args.isEmpty then sh.arguments else args
  let next := count 1 (sh.bindings.lookup "OPTIND").toList
  match nextOption? known.toList args next sh.optionOffset with
  | .inr next => ((sh.bind "OPTIND" (toString next)).assign name "?").withStatus 1
  | .inl o =>
    let sh := sh.write 2 o.complaint.toList
    let sh := match o.value with
      | some value => sh.bind "OPTARG" value
      | none => sh.forget "OPTARG"
    let sh := (sh.bind "OPTIND" (toString o.next)).assign name o.letter.toString
    { sh with optionOffset := o.offset, status := 0 }

/-- Does something with a number that may be given as an argument. -/
def withCount (sh : Shell) (default : Nat) (args : List String) (action : Nat → Shell) : Shell :=
  match args with
  | [] => action default
  | arg :: _ =>
    match Text.digits? arg.toList with
    | some n => action n
    | none => sh.fail ("Illegal number: " ++ arg)

/-- Drops arguments. -/
def shift (sh : Shell) (args : List String) : Shell :=
  sh.withCount 1 args fun n =>
    if sh.arguments.length < n then sh.fail "can\x27t shift that many"
    else { sh with arguments := sh.arguments.drop n, status := 0 }

/-- Leaves loops or goes on with the next turn. -/
def leaveLoops (sh : Shell) (args : List String) (stop : Nat → Stop) : Shell :=
  sh.withCount 1 args fun n =>
    if n = 0 then sh.fail "Illegal number: 0"
    else if sh.loops = 0 then sh.withStatus 0
    else { sh with status := 0, stop := some (stop (if sh.loops < n then sh.loops else n)) }

/-! ## Processes -/

/-- Says what is done when signals arrive. -/
def setTraps (sh : Shell) (args : List String) : Shell :=
  let args := if args.head? = some "--" then args.tail else args
  let (action, signals) := match args with
    | [signal] => ("-", [signal])
    | action :: signals => (action, signals)
    | [] => ("-", [])
  if args.isEmpty then
    let ordered := sh.traps.mergeSort fun a b => decide (a.1 ≤ b.1)
    (sh.write 1 (ordered.flatMap fun (signal, text) =>
      ("trap -- " ++ quoted text ++ " " ++ Signal.name signal ++ "\n").toList)).withStatus 0
  else
    signals.foldl (fun sh text => match Signal.ofText? text with
      | some signal =>
        let others := sh.traps.filter (·.1 ≠ signal)
        { sh with traps := if action = "-" then others else (signal, action.toList) :: others }
      | none => (sh.write 2 ("trap: " ++ text ++ ": bad trap\n").toList).withStatus 1)
      (sh.withStatus 0)

/-- Waits for a process in the background, all of which have already ended. -/
def wait (sh : Shell) : List String → Shell
  | [] => sh.withStatus 0
  | args => sh.withCount 0 args fun n => sh.withStatus ((sh.jobs.lookup n).getD 127)

/-- Tells or sets the mask for new files. -/
def maskFiles (sh : Shell) : List String → Shell
  | [] =>
    let digits := Nat.toDigits 8 sh.mask
    let text := List.replicate (4 - digits.length) '0' ++ digits ++ ['\n']
    (sh.write 1 text).withStatus 0
  | "-S" :: _ =>
    let rights (shift : Nat) : String :=
      let bits := 7 - sh.mask / shift % 8
      (if 4 ≤ bits then "r" else "") ++ (if 2 ≤ bits % 4 then "w" else "")
        ++ (if bits % 2 = 1 then "x" else "")
    let text := "u=" ++ rights 64 ++ ",g=" ++ rights 8 ++ ",o=" ++ rights 1 ++ "\n"
    (sh.write 1 text.toList).withStatus 0
  | text :: _ =>
    match numberIn? 8 text.toList with
    | some mask => { sh with mask := mask.toNat % 512, status := 0 }
    | none =>
      let kind := if text.toList.all Char.isDigit then "number" else "mode"
      sh.complain ("Illegal " ++ kind ++ ": " ++ text) 2

/-! ## All of them -/

/-- The other commands of the shell. -/
def ordinaryCommands : List String :=
  ["[", "alias", "bg", "cd", "chdir", "command", "echo", "false", "fg", "getopts", "hash", "jobs",
    "kill", "printf", "pwd", "read", "test", "true", "type", "ulimit", "umask", "unalias",
    "wait"]

/-- Whether a name is that of a command of the shell. -/
def isBuiltin (name : String) : Bool :=
  lastingCommands.contains name || ordinaryCommands.contains name

/-- The path of the program that a name starts, if there is one. -/
def programPath? (sh : Shell) (name : String) : Option String :=
  let directories := if name.toList.contains '/' then [""] else sh.searchDirectories
  let paths := directories.map fun directory =>
    if directory.isEmpty then name else directory ++ "/" ++ name
  paths.find? fun path =>
    match Command.atPath sh.world.tree (Text.ofOctets path.toList) with
    | .ok _ => true
    | .error _ => false

/-- Tells what a name is, in words or as it would be written. -/
def describe (sh : Shell) (inWords : Bool) (name : String) : Shell :=
  let tell (words short : String) : Shell :=
    (sh.write 1 ((if inWords then name ++ words else short) ++ "\n").toList)
  if Script.keywords.contains name then tell " is a shell keyword" name
  else match sh.aliases.lookup name.toList with
    | some text => tell (" is an alias for " ++ String.ofList text)
        ("alias " ++ name ++ "=" ++ quoted text)
    | none =>
      if (sh.functions.lookup name).isSome then tell " is a shell function" name
      else if lastingCommands.contains name then tell " is a special shell builtin" name
      else if isBuiltin name then tell " is a shell builtin" name
      else match sh.programPath? name with
        | some path => tell (" is " ++ path) path
        | none =>
          (if inWords then sh.write 1 (name ++ ": not found\n").toList else sh).withStatus 127

/-- Writes to the output, if it is open. -/
def writeOut (sh : Shell) (command : String) (text : List Char) (status : Nat) : Shell :=
  if (sh.channels.lookup 1).isSome then (sh.write 1 text).withStatus status
  else sh.complain (command ++ ": I/O error") 1

/-- Runs a test. -/
def test (sh : Shell) (parts : List String) : Shell :=
  match Test.answer sh parts with
  | .ok answer => sh.withStatus (if answer then 0 else 1)
  | .error fault => sh.complain fault 2

/-- Runs a command of the shell with its arguments. -/
def runBuiltin (sh : Shell) (name : String) (args : List String) : Shell :=
  let succeed (sh : Shell) : Shell := sh.withStatus 0
  match name, args with
  | "false", _ => sh.withStatus 1
  | "echo", _ => sh.writeOut name (echoText args) 0
  | "printf", "--" :: template :: values | "printf", template :: values =>
    let written := printfText template values
    let told := written.complaints.foldl (fun sh complaint => sh.complain complaint 1) sh
    told.writeOut name written.text written.status
  | "printf", [] => sh.complain "usage: printf format [arg ...]" 2
  | "read", _ => sh.readArgs false args
  | "test", _ => sh.test args
  | "[", _ => if args.getLast? = some "]" then sh.test args.dropLast else sh.complain "missing ]" 2
  | "exit", [] | "return", [] =>
    { sh with stop := some (if name = "exit" then .exit else .back) }
  | "exit", _ => sh.withCount 0 args fun n => { sh with status := n % 256, stop := some .exit }
  | "return", _ => sh.withCount 0 args fun n => { sh with status := n % 256, stop := some .back }
  | "break", _ => sh.leaveLoops args .leave
  | "continue", _ => sh.leaveLoops args .next
  | "shift", _ => sh.shift args
  | "set", _ => (succeed sh).setArgs args
  | "export", _ =>
    let (sh, names) := (succeed sh).assignAll args
    { sh with exported := names ++ sh.exported }
  | "readonly", _ =>
    let (sh, names) := (succeed sh).assignAll args
    { sh with fixed := names ++ sh.fixed }
  | "local", _ => sh.shadow args
  | "unset", _ => sh.unset args
  | "alias", _ => sh.setAliases args
  | "unalias", _ => sh.dropAliases args
  | "cd", _ | "chdir", _ => sh.changeDirectory args
  | "pwd", _ =>
    sh.writeOut name (sh.directoryText (args.head? = some "-P") ++ "\n").toList 0
  | "getopts", known :: name :: args => sh.getOption known name args
  | "getopts", _ => sh.complain "Usage: getopts optstring var [arg...]" 2
  | "trap", _ => sh.setTraps args
  | "wait", _ => sh.wait args
  | "umask", _ => sh.maskFiles args
  | "type", _ => args.foldl (fun sh name => sh.describe true name) (succeed sh)
  | _, _ => succeed sh

end Resin.Shell
