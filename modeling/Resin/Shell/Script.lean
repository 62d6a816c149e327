import Resin.Shell.Item

/-!
# Shell scripts

A script is a tree of commands, read from its items by recursive descent. Every reader gives what
it has read and the items that are left, or says what is wrong with the items. A script is read
line by line, since a line that has been run can say how a later one is read.
-/

namespace Resin.Shell

/-- A redirection of a channel, or of the input to a text given in the script. -/
inductive Redirect where
  | channel (channel : Nat) (direction : Direction) (target : Raw)
  | here (text : Raw) (verbatim : Bool)
deriving DecidableEq, Repr, Inhabited

/-- A shell script. -/
inductive Script where
  | nothing
  | simple (words : List Raw) (redirects : List Redirect)
  | redirected (body : Script) (redirects : List Redirect)
  | inOrder (first second : Script)
  | both (first second : Script)
  | either (first second : Script)
  | negation (body : Script)
  | pipe (source target : Script)
  | background (body : Script)
  | subshell (body : Script)
  | branch (condition yes no : Script)
  | loop (wanted : Bool) (condition body : Script)
  | each (name : String) (words : Option (List Raw)) (body : Script)
  | choice (word : Raw) (patterns : List Raw) (yes no : Script)
  | definition (name : String) (body : Script)
  | atLine (line : Nat) (body : Script)
deriving DecidableEq, Repr, Inhabited

/-- The name and the value of an assignment, if a word is one. -/
def assignment? (word : Raw) : Option (String × Raw) :=
  let name := word.takeWhile isNameChar
  match isName name, word.drop name.length with
  | true, '=' :: value => some (String.ofList name, value)
  | _, _ => none

namespace Script

/-- What is wrong with items, and how many of them were left then. -/
structure Fault where
  message : String
  left : Nat
deriving DecidableEq, Repr, Inhabited

/-- What a reader gives. -/
abbrev Reading := Except Fault (Script × List Item)

/-- The words that stand for a text where a command begins. -/
abbrev Aliases := List (Raw × Raw)

/-- What a reader has to know: the words that stand for a text, the lines of all items, and the last
line. -/
structure Context where
  aliases : Aliases
  lines : Array Nat
  lastLine : Nat
deriving DecidableEq, Repr, Inhabited

/-- The line in which a number of items are left. -/
def Context.line (context : Context) (left : Nat) : Nat :=
  context.lines.getD (context.lines.size - left) context.lastLine

/-! ## Items -/

/-- The item of a word that is written without quotes. -/
def plainWord (word : String) : Item := .word word.toList

/-- The words of the language that end a list of commands. -/
def closingWords : List String := ["then", "else", "elif", "fi", "do", "done", "esac", "\x7d"]

/-- The words of the language. -/
def keywords : List String :=
  ["!", "case", "for", "if", "until", "while", "\x7b"] ++ closingWords

/-- The items that end a list of commands. -/
def closers : List Item := [.sign ")", .sign ";;"] ++ closingWords.map plainWord

/-- The items after the ends of lines. -/
def pastLines (items : List Item) : List Item :=
  items.dropWhile (· == .sign "\n")

/-! ## Faults -/

/-- A text in double quotes. -/
def inQuotes (text : String) : String := "\x22" ++ text ++ "\x22"

/-- What the first of some items is called. -/
def itemName : List Item → String
  | [] => "end of file"
  | .word text :: _ =>
    let word := String.ofList text
    if keywords.contains word then inQuotes word else "word"
  | .sign text :: _ => if text = "\n" then "newline" else inQuotes text
  | .redirect _ _ :: _ | .here _ _ :: _ => "redirection"
  | .unfinished _ :: _ => "word"

/-- What is wrong if something else than the first of some items has to follow. -/
def complaint (items : List Item) (expected : Option String) : String :=
  match items with
  | .unfinished .parentheses :: _ => "end of file unexpected (expecting \x22)\x22)"
  | .unfinished .backquotes :: _ => "EOF in backquote substitution"
  | .unfinished .braces :: _ | .unfinished .quotedBraces :: _ => "Missing \x27\x7d\x27"
  | .unfinished _ :: _ => "Unterminated quoted string"
  | _ =>
    itemName items ++ " unexpected" ++ match expected with
      | some text => " (expecting " ++ text ++ ")"
      | none => ""

/-- The fault that something else than the first of some items has to follow. -/
def unexpected (items : List Item) (expected : Option String) : Fault :=
  ⟨complaint items expected, items.length⟩

/-- The fault that items stand within each other too deep to be read. -/
def tooDeep : Fault := ⟨"too deep", 0⟩

/-- The items after a sign. -/
def pastSign (sign : String) (items : List Item) : Except Fault (List Item) :=
  if items.head? = some (.sign sign) then .ok items.tail
  else .error (unexpected items (inQuotes sign))

/-- The items after a word of the language. -/
def pastWord (word : String) (items : List Item) : Except Fault (List Item) :=
  if items.head? = some (plainWord word) then .ok items.tail
  else .error (unexpected items (inQuotes word))

/-! ## Parts of commands -/

/-- The words and redirections of a simple command. -/
def simpleParts : List Item → List Raw × List Redirect × List Item
  | .word text :: rest =>
    let (words, redirects, left) := simpleParts rest
    (text :: words, redirects, left)
  | .redirect channel direction :: .word target :: rest =>
    let (words, redirects, left) := simpleParts rest
    (words, .channel channel direction target :: redirects, left)
  | .here text verbatim :: rest =>
    let (words, redirects, left) := simpleParts rest
    (words, .here text verbatim :: redirects, left)
  | rest => ([], [], rest)

/-- The redirections behind a command. -/
def redirectsOf : List Item → List Redirect × List Item
  | .redirect channel direction :: .word target :: rest =>
    let (redirects, left) := redirectsOf rest
    (.channel channel direction target :: redirects, left)
  | .here text verbatim :: rest =>
    let (redirects, left) := redirectsOf rest
    (.here text verbatim :: redirects, left)
  | rest => ([], rest)

/-- What has been read, unless a redirection without a target or an unfinished word follows. -/
def followed (script : Script) (items : List Item) : Reading :=
  match items with
  | .redirect _ _ :: rest => .error (unexpected rest none)
  | .unfinished _ :: _ => .error (unexpected items none)
  | _ => .ok (script, items)

/-- A command with the redirections behind it. -/
def withRedirects (body : Script) (items : List Item) : Reading :=
  match redirectsOf items with
  | ([], left) => followed body left
  | (redirects, left) => followed (.redirected body redirects) left

/-- A simple command. -/
def simpleCommand (items : List Item) : Reading :=
  match simpleParts items with
  | ([], [], left) =>
    match left with
    | .redirect _ _ :: rest => .error (unexpected rest none)
    | _ => .error (unexpected left none)
  | (words, redirects, left) => followed (.simple words redirects) left

/-- The words up to the end of a command. -/
def wordsOf : List Item → List Raw × List Item
  | .word text :: rest =>
    let (words, left) := wordsOf rest
    (text :: words, left)
  | rest => ([], rest)

/-- The patterns of a case, with bars between them and a parenthesis after them. -/
def patternsOf : List Item → Except Fault (List Raw × List Item)
  | .word text :: .sign ")" :: rest => .ok ([text], rest)
  | .word text :: .sign "|" :: rest => do
    let (patterns, left) ← patternsOf rest
    return (text :: patterns, left)
  | .word _ :: rest => .error (unexpected rest (inQuotes ")"))
  | items => .error (unexpected items none)

/-! ## Commands -/

mutual

/-- Reads commands up to an item that ends the list. -/
def list (context : Context) : Nat → List Item → Reading
  | 0, _ => .error tooDeep
  | n + 1, items => do
    let items := pastLines items
    match items with
    | [] => .ok (.nothing, [])
    | item :: _ =>
      if closers.contains item then return (.nothing, items)
      let (first, rest) ← joined context n items
      match rest with
      | .sign "&" :: rest =>
        let (others, rest) ← list context n rest
        .ok (.inOrder (.background first) others, rest)
      | .sign sign :: left =>
        if sign = ";" ∨ sign = "\n" then
          let (others, rest) ← list context n left
          .ok (.inOrder first others, rest)
        else .ok (first, rest)
      | _ => .ok (first, rest)

/-- Reads pipelines that are joined by `&&` and `||`. -/
def joined (context : Context) : Nat → List Item → Reading
  | 0, _ => .error tooDeep
  | n + 1, items => do
    let (first, rest) ← pipeline context n items
    joinedFrom context n first rest

/-- Reads the pipelines after a first one. -/
def joinedFrom (context : Context) : Nat → Script → List Item → Reading
  | 0, _, _ => .error tooDeep
  | n + 1, first, items =>
    match items with
    | .sign "&&" :: rest => do
      let (second, rest) ← pipeline context n (pastLines rest)
      joinedFrom context n (.both first second) rest
    | .sign "||" :: rest => do
      let (second, rest) ← pipeline context n (pastLines rest)
      joinedFrom context n (.either first second) rest
    | _ => .ok (first, items)

/-- Reads commands with bars between them. -/
def pipeline (context : Context) : Nat → List Item → Reading
  | 0, _ => .error tooDeep
  | n + 1, items => do
    if items.head? = some (plainWord "!") then
      let (body, rest) ← pipeline context n items.tail
      return (.negation body, rest)
    let (source, rest) ← command context n items
    match rest with
    | .sign "|" :: rest =>
      let (target, rest) ← pipeline context n (pastLines rest)
      .ok (.pipe source target, rest)
    | _ => .ok (source, rest)

/-- Reads a command, which is told its line. -/
def command (context : Context) : Nat → List Item → Reading
  | 0, _ => .error tooDeep
  | n + 1, items => do
    let (body, rest) ← commandBody context n items
    return (.atLine (context.line items.length) body, rest)

/-- Reads what a command does. -/
def commandBody (context : Context) : Nat → List Item → Reading
  | 0, _ => .error tooDeep
  | n + 1, items =>
    match items with
    | .sign "(" :: rest => do
      let (body, rest) ← list context n rest
      withRedirects (.subshell body) (← pastSign ")" rest)
    | .word word :: rest =>
      if closers.contains (.word word) then .error (unexpected items none)
      else if word = ['{'] then do
        let (body, rest) ← list context n rest
        withRedirects body (← pastWord "\x7d" rest)
      else if word = "if".toList then do
        let (body, rest) ← branches context n rest
        withRedirects body rest
      else if word = "while".toList ∨ word = "until".toList then do
        let (condition, rest) ← list context n rest
        let (body, rest) ← list context n (← pastWord "do" rest)
        withRedirects (.loop (word = "while".toList) condition body) (← pastWord "done" rest)
      else if word = "for".toList then do
        let badVariable : Fault := ⟨"Bad for loop variable", rest.length⟩
        let (name, rest) ← match rest with
          | .word name :: rest =>
            if isName name then .ok (name, rest) else .error badVariable
          | _ => .error badVariable
        let (words, rest) := match pastLines rest with
          | .word ['i', 'n'] :: rest => ((wordsOf rest).map some id)
          | rest => (none, rest)
        let rest := pastLines (if rest.head? = some (.sign ";") then rest.tail else rest)
        let (body, rest) ← list context n (← pastWord "do" rest)
        withRedirects (.each (String.ofList name) words body) (← pastWord "done" rest)
      else if word = "case".toList then do
        let (subject, rest) ← match rest with
          | .word subject :: rest => .ok (subject, rest)
          | _ => .error (unexpected rest "word")
        let (body, rest) ← cases context n subject (pastLines (← pastWord "in" (pastLines rest)))
        withRedirects body rest
      else match context.aliases.lookup word with
        | some text =>
          let others := context.aliases.filter (·.1 ≠ word)
          let meant := (Shell.items 0 1 0 text).map Prod.fst
          commandBody { context with aliases := others } n (meant ++ rest)
        | none =>
          match rest with
          | .sign "(" :: rest =>
            if (assignment? word).isSome then simpleCommand items
            else do
              let (body, rest) ← command context n (pastLines (← pastSign ")" rest))
              return (.definition (String.ofList word) body, rest)
          | _ => simpleCommand items
    | _ => simpleCommand items

/-- Reads a condition and its branches, up to the word that ends them. -/
def branches (context : Context) : Nat → List Item → Reading
  | 0, _ => .error tooDeep
  | n + 1, items => do
    let (condition, rest) ← list context n items
    let (yes, rest) ← list context n (← pastWord "then" rest)
    if rest.head? = some (plainWord "elif") then
      let (no, rest) ← branches context n rest.tail
      return (.branch condition yes no, rest)
    else if rest.head? = some (plainWord "else") then
      let (no, rest) ← list context n rest.tail
      return (.branch condition yes no, ← pastWord "fi" rest)
    else return (.branch condition yes .nothing, ← pastWord "fi" rest)

/-- Reads the cases for a subject, up to the word that ends them. -/
def cases (context : Context) : Nat → Raw → List Item → Reading
  | 0, _, _ => .error tooDeep
  | n + 1, subject, items => do
    if items.head? = some (plainWord "esac") then return (.nothing, items.tail)
    let items := if items.head? = some (.sign "(") then items.tail else items
    let (patterns, rest) ← patternsOf items
    let (yes, rest) ← list context n rest
    let rest ← if rest.head? = some (.sign ";;") then .ok (pastLines rest.tail)
      else if rest.head? = some (plainWord "esac") then .ok rest
      else .error (unexpected rest (inQuotes ";;"))
    let (no, rest) ← cases context n subject rest
    return (.choice subject patterns yes no, rest)

end

/-- Reads commands up to the end of a line. -/
def line (context : Context) : Nat → List Item → Reading
  | 0, _ => .error tooDeep
  | n + 1, items => do
    let (first, rest) ← joined context n items
    let more (first : Script) (rest : List Item) : Reading :=
      match rest with
      | [] => .ok (first, [])
      | .sign "\n" :: rest => .ok (first, rest)
      | _ => do
        let (others, rest) ← line context n rest
        return (.inOrder first others, rest)
    match rest with
    | [] => .ok (first, [])
    | .sign "\n" :: rest => .ok (first, rest)
    | .sign ";" :: rest => more first rest
    | .sign "&" :: rest => more (.background first) rest
    | _ => .error (unexpected rest none)

/-- Reads the commands of the first line of some items. No reader goes deeper than a few calls for
each item, or for each character of a text that stands for a word. -/
def ofLine (context : Context) (items : List Item) : Reading :=
  let size := items.length + (context.aliases.flatMap Prod.snd).length
  line context (10 * size + 10) items

end Script

end Resin.Shell
