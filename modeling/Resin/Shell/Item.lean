/-!
# Items of a shell script

A script is cut into words, signs and redirections. A word keeps its quotes and dollar signs: what
it stands for is found when it is used.
-/

namespace Resin.Shell

/-! ## Names -/

/-- The text of a word as it stands in a script. -/
abbrev Raw := List Char

/-- The characters of a variable's name. -/
def isNameChar (c : Char) : Bool := c.isAlphanum || c == '_'

/-- Whether a text can be the name of a variable. -/
def isName (text : List Char) : Bool :=
  text.all isNameChar && text.head?.any (!·.isDigit)

/-- The name of a parameter at the start of a text. -/
def parameterName (text : Raw) : Raw :=
  match text with
  | c :: _ =>
    if ['$', '?', '#', '@', '*', '!', '-'].contains c then [c]
    else text.takeWhile isNameChar
  | [] => []

/-! ## Extent of words -/

/-- What a character of a word can stand inside of. -/
inductive Enclosure where
  | quotes | doubleQuotes | backquotes | braces | quotedBraces | parentheses
deriving DecidableEq, Repr, Inhabited

/-- The enclosures, innermost first, after a character that neither is escaped nor follows a
dollar sign. -/
def enclosuresAfter (enclosures : List Enclosure) (c : Char) : List Enclosure :=
  let opened (others : List Enclosure) : List Enclosure :=
    if c = '\x27' then .quotes :: others
    else if c = '\x22' then .doubleQuotes :: others
    else if c = '\x60' then .backquotes :: others
    else others
  match enclosures with
  | [] => opened []
  | .quotes :: outer => if c = '\x27' then outer else enclosures
  | .backquotes :: outer => if c = '\x60' then outer else enclosures
  | .doubleQuotes :: outer =>
    if c = '\x22' then outer else if c = '\x60' then .backquotes :: enclosures else enclosures
  | .braces :: outer => if c = '}' then outer else opened enclosures
  | .quotedBraces :: outer =>
    if c = '}' then outer else if c = '\x27' then enclosures else opened enclosures
  | .parentheses :: outer =>
    if c = ')' then outer
    else if c = '(' then .parentheses :: enclosures
    else opened enclosures

/-- The enclosure that an opening brace in front of a text begins. A pattern has quotes of its own,
also if the braces are quoted. -/
def bracesAround (quoted : Bool) (inside : Raw) : Enclosure :=
  let sign := (inside.drop (parameterName inside).length).head?
  if quoted ∧ sign ≠ some '%' ∧ sign ≠ some '#' then .quotedBraces else .braces

/-- The enclosures after a character with `rest` behind it, and whether the next one belongs to it:
it is escaped, or a dollar sign in front of it opens an enclosure with it. -/
def passed (enclosures : List Enclosure) (c : Char) (rest : Raw) : List Enclosure × Bool :=
  let next := rest.head?
  if enclosures.head? = some .quotes then (enclosuresAfter enclosures c, false)
  else if c = '\\' then (enclosures, true)
  else if c = '$' ∧ next = some '(' ∧ enclosures.head? ≠ some .backquotes then
    (.parentheses :: enclosures, true)
  else if c = '$' ∧ next = some '{' ∧ enclosures.head? ≠ some .backquotes then
    let inQuotes := enclosures.head? = some .doubleQuotes ∨ enclosures.head? = some .quotedBraces
    (bracesAround inQuotes rest.tail :: enclosures, true)
  else (enclosuresAfter enclosures c, false)

/-- The number of characters in front of the first one that ends a text and is not enclosed, and
what is still open at the end of the text, if anything. The flag `skip` tells that the first
character is already dealt with. -/
def scan (ends : Char → Bool) (enclosures : List Enclosure) (skip : Bool) :
    Raw → Nat × Option Enclosure
  | [] => (0, enclosures.head?)
  | c :: cs =>
    if !skip && enclosures.isEmpty && ends c then (0, none)
    else
      let (after, both) := if skip then (enclosures, false) else passed enclosures c cs
      let (length, unclosed) := scan ends after both cs
      (length + 1, unclosed)

/-- The number of characters up to the end of an enclosure that has just been opened, with the
character that closes it. -/
def enclosedLength (enclosure : Enclosure) (text : Raw) : Nat :=
  (scan (fun _ => true) [enclosure] false text).1

/-- The characters between words. -/
def isBlank (c : Char) : Bool := c == ' ' || c == '\t'

/-- The characters that end a word. -/
def endsWord (c : Char) : Bool :=
  isBlank c || ['\n', ';', '&', '|', '<', '>', '(', ')'].contains c

/-! ## Items -/

/-- What a redirection does with its target. -/
inductive Direction where
  | read | write | overwrite | append | duplicate
deriving DecidableEq, Repr, Inhabited

/-- An item of a script. A redirection stands in front of the word for its target. A text that
is given in the script itself is an item with all its lines; it may be meant verbatim. A word in
which something is not closed takes up the rest of the script. -/
inductive Item where
  | word (text : Raw)
  | unfinished (enclosure : Enclosure)
  | sign (text : String)
  | redirect (channel : Nat) (direction : Direction)
  | here (text : Raw) (verbatim : Bool)
deriving DecidableEq, Repr, Inhabited

/-- The signs, with each before those that it begins with. -/
def signs : List String := ["&&", "||", ";;", ";", "&", "|", "(", ")"]

/-- The signs of redirections, with each before those that it begins with. -/
def redirections : List (String × Direction) :=
  [("<&", .duplicate), ("<>", .read), ("<", .read), (">>", .append), (">&", .duplicate),
    (">|", .overwrite), (">", .write)]

/-- The lines of a text. -/
def lines : List Char → List (List Char)
  | [] => [[]]
  | c :: cs =>
    if c = '\n' then [] :: lines cs
    else match lines cs with
      | [] => [[c]]
      | line :: rest => (c :: line) :: rest

/-- The lines in front of the one that is the delimiter, and the number of characters up to and
with that one. If there is none, the last line is the rest of the script. Tabs in front of the
lines may be dropped. -/
def linesUpTo (delimiter : Raw) (dropTabs : Bool) : List (List Char) → List Char × Nat
  | [] => ([], 0)
  | line :: rest =>
    let content := if dropTabs then line.dropWhile (· == '\t') else line
    if content = delimiter then ([], line.length + 1)
    else
      let (others, length) := linesUpTo delimiter dropTabs rest
      let lineEnd := if rest.isEmpty then [] else ['\n']
      (content ++ lineEnd ++ others, line.length + 1 + length)

/-- A text given in the script: the item for it, the length of what names its delimiter, and the
length of its lines. -/
structure Here where
  item : Item
  nameLength : Nat
  linesLength : Nat
deriving DecidableEq, Repr, Inhabited

/-- The text of which the sign stands in front of `after`. Its lines follow the current one and
`owed` characters more. -/
def hereAt (dropTabs : Bool) (owed : Nat) (after : List Char) : Here :=
  let blanks := after.takeWhile isBlank
  let rest := after.drop blanks.length
  let name := rest.take (scan endsWord [] false rest).1
  let delimiter := name.filter fun c => c ≠ '\x27' ∧ c ≠ '\x22' ∧ c ≠ '\\'
  let below := (rest.dropWhile (· ≠ '\n')).drop (1 + owed)
  let (body, length) := linesUpTo delimiter dropTabs (lines below)
  ⟨.here body (name ≠ delimiter),
    blanks.length + name.length, length⟩

/-- The items of a script, each with the number of its line, if the first `skip` characters are
already dealt with and the first other one is in line `line`. The end of a line counts as a part of
the next one. The lines of texts given in the script, `owed` characters long, are passed over at the
end of the line. -/
def items (owed line : Nat) : Nat → List Char → List (Item × Nat)
  | _, [] => []
  | skip + 1, c :: cs => items owed (if c = '\n' then line + 1 else line) skip cs
  | 0, c :: cs =>
    let text := c :: cs
    let startsWith (sign : String) (text : List Char) : Bool := sign.toList.isPrefixOf text
    if isBlank c then items owed line 0 cs
    else if c = '\n' then (.sign "\n", line + 1) :: items 0 (line + 1) owed cs
    else if c = '#' then items owed line (cs.takeWhile (· ≠ '\n')).length cs
    else if c = '\\' ∧ cs.head? = some '\n' then items owed line 1 cs
    else match signs.find? (startsWith · text) with
      | some sign => (.sign sign, line) :: items owed line (sign.length - 1) cs
      | none =>
        let digits := text.takeWhile Char.isDigit
        let after := text.drop digits.length
        if startsWith "<<" after then
          let dropTabs := startsWith "<<-" after
          let length := digits.length + (if dropTabs then 3 else 2)
          let here := hereAt dropTabs owed (text.drop length)
          (here.item, line)
            :: items (owed + here.linesLength) line (length + here.nameLength - 1) cs
        else match redirections.find? (startsWith ·.1 after) with
          | some (sign, direction) =>
            let channel := if digits.isEmpty then (if after.head? = some '<' then 0 else 1)
              else digits.foldl (fun n d => 10 * n + (d.toNat - '0'.toNat)) 0
            (.redirect channel direction, line)
              :: items owed line (digits.length + sign.length - 1) cs
          | none =>
            match scan endsWord [] false text with
            | (length, none) => (.word (text.take length), line) :: items owed line (length - 1) cs
            | (_, some enclosure) => [(.unfinished enclosure, line + text.count '\n')]

end Resin.Shell
