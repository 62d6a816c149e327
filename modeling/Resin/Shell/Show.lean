import Resin.Shell.State

/-!
# Showing files

The command that writes files one after another, with its options for numbering lines and for making
characters visible.
-/

namespace Resin.Shell.Show

/-- The options that an option letter stands for, if it is one. -/
def option? (c : Char) : Option (List Char) :=
  match c with
  | 'A' => some ['v', 'E', 'T']
  | 'e' => some ['v', 'E']
  | 't' => some ['v', 'T']
  | 'b' | 'n' | 's' | 'v' | 'E' | 'T' | 'u' => some [c]
  | _ => none

/-- The options among arguments, or the first letter that is none, and the other arguments. -/
def options : List String → Except Char (List Char × List String)
  | [] => .ok ([], [])
  | arg :: rest =>
    if arg = "--" then .ok ([], rest)
    else do
      let (others, files) ← options rest
      if arg.toList.head? = some '-' ∧ arg ≠ "-" then
        let letters ← arg.toList.tail.mapM fun c => match option? c with
          | some letters => .ok letters
          | none => .error c
        return (letters.flatten ++ others, files)
      else return (others, arg :: files)

/-- A character made visible. -/
def visible (options : List Char) (c : Char) : List Char :=
  let control (c : Char) : List Char :=
    if c.toNat < 32 then ['^', Char.ofNat (c.toNat + 64)]
    else if c.toNat = 127 then ['^', '?']
    else [c]
  if c = '\t' then (if options.contains 'T' then control c else [c])
  else if !options.contains 'v' then [c]
  else if c.toNat < 128 then control c
  else ['M', '-'] ++ control (Char.ofNat (c.toNat - 128))

/-- The number of a line in front of it. -/
def numbered (n : Nat) (line : List Char) : List Char :=
  let digits := Nat.toDigits 10 n
  List.replicate (6 - digits.length) ' ' ++ digits ++ '\t' :: line

/-- Lines made visible, from a number on. The last one is not ended, and is nothing if it is empty.
A line after an empty one may be passed over if it is empty too. -/
def showLines (options : List Char) (n : Nat) (afterEmpty : Bool) : List (List Char) → List Char
  | [] => []
  | line :: rest =>
    let isLast := rest.isEmpty
    if isLast ∧ line.isEmpty then []
    else if options.contains 's' ∧ afterEmpty ∧ line.isEmpty then showLines options n true rest
    else
      let counts := if options.contains 'b' then !line.isEmpty else options.contains 'n'
      let content := line.flatMap (visible options)
      let lineEnd := if isLast then [] else if options.contains 'E' then ['$', '\n'] else ['\n']
      (if counts then numbered n content else content) ++ lineEnd
        ++ showLines options (if counts then n + 1 else n) line.isEmpty rest

/-- A text as it is shown. -/
def shown (options : List Char) (text : List Char) : List Char :=
  if options.isEmpty then text else showLines options 1 false (lines text)

/-- Reads files one after another, or the input for a hyphen. What cannot be read is told of. -/
def gather (sh : Shell) : List String → Shell × List Char
  | [] => (sh, [])
  | file :: files =>
    let contents := if file = "-" ∨ file = "/dev/stdin" then
        if sh.channels.lookup 0 = some .directory then .error .isDirectory else .ok (sh.inputOf 0)
      else sh.contents file
    let (sh, text) := match contents with
      | .ok text => (if file = "-" ∨ file = "/dev/stdin" then sh.setInput 0 [] else sh, text)
      | .error e =>
        ((sh.write 2 ("cat: " ++ file ++ ": " ++ e.message ++ "\n").toList).withStatus 1, [])
    let (sh, others) := gather sh files
    (sh, text ++ others)

/-- Writes files. -/
def run (sh : Shell) (args : List String) : Shell :=
  match options args with
  | .error c =>
    (sh.write 2 ("cat: invalid option -- \x27" ++ c.toString
      ++ "\x27\nTry \x27cat --help\x27 for more information.\n").toList).withStatus 1
  | .ok (options, files) =>
    let (sh, text) := gather (sh.withStatus 0) (if files.isEmpty then ["-"] else files)
    sh.write 1 (shown options text)

end Resin.Shell.Show
