import Resin.Shell.Arithmetic
import Resin.Shell.Glob
import Resin.Shell.State
import Resin.Shell.Word

/-!
# Expansion of words

A word is used by putting values in the place of its pieces, and then dividing what came from
values into fields. The way to run a script is a parameter of these functions.
-/

namespace Resin.Shell

/-- A way to run a script. -/
abbrev Runner := Script → Shell → Shell

/-! ## Scripts within scripts -/

/-- Runs items line by line, at most `n` lines. -/
def runItems (go : Runner) (lines : Array Nat) (lastLine : Nat) :
    Nat → List Item → Shell → Shell
  | 0, _, sh => sh
  | n + 1, items, sh =>
    let items := Script.pastLines items
    if sh.stop.isSome || items.isEmpty then sh
    else
      let context : Script.Context := ⟨sh.aliases, lines, lastLine⟩
      match Script.ofLine context items with
      | .ok (script, rest) =>
        runItems go lines lastLine n rest (if sh.hasOption 'n' then sh else go script sh)
      | .error fault =>
        let sh := { sh with line := context.line fault.left }
        (sh.complain ("Syntax error: " ++ fault.message) 2).exit 2

/-- Runs a text that begins in a line as a script; one without commands succeeds. -/
def runTextFrom (go : Runner) (line : Nat) (text : Raw) (sh : Shell) : Shell :=
  let (items, lines) := (items 0 line 0 text).unzip
  if (Script.pastLines items).isEmpty then sh.withStatus 0
  else runItems go lines.toArray (line + text.count '\n') items.length items sh

/-- Runs a text as a script. -/
def runText (go : Runner) (text : Raw) (sh : Shell) : Shell := runTextFrom go 1 text sh

/-- Runs what was left to be done at the end of a shell. -/
def runFarewell (go : Runner) (sh : Shell) : Shell :=
  match sh.signal?, sh.traps.lookup 0 with
  | none, some text =>
    let last := runText go text { sh with stop := none, traps := sh.traps.filter (·.1 ≠ 0) }
    if last.stop.isSome then last else last.withStatus sh.status
  | _, _ => sh

/-- Lets a signal arrive at the shell. -/
def receive (go : Runner) (signal : Nat) (sh : Shell) : Shell :=
  match if Signal.canBeCaught signal then sh.traps.lookup signal else none with
  | some [] => sh
  | some text =>
    let after := runText go text { sh with current := none, survives := false }
    let after := { after with current := sh.current, survives := sh.survives }
    if after.stop.isSome then after else after.withStatus sh.status
  | none => if signal = 0 || Signal.isHarmless signal then sh
    else { sh with stop := some (.killed signal) }

/-- Lets the signals arrive that parts of the shell have sent to it. -/
def receivePending (go : Runner) (sh : Shell) : Shell :=
  if sh.isApart then sh
  else
    let (own, others) := sh.world.pending.partition (·.1 = sh.number)
    own.foldl (fun sh (_, signal) => if sh.stop.isSome then sh else receive go signal sh)
      { sh with world := { sh.world with pending := others } }

/-- Does something in a part of the shell that is apart, where signals are only ignored as before. -/
def apart (go : Runner) (action : Shell → Shell) (sh : Shell) : Shell :=
  let inner := { sh with isApart := true, traps := sh.traps.filter (·.2.isEmpty) }
  receivePending go (sh.rejoin (runFarewell go (action inner)))

/-- Does something apart, and gives what it writes instead of writing it. -/
def capture (go : Runner) (action : Shell → Shell) (sh : Shell) : Shell × List Char :=
  let (index, inner) := sh.newText
  let after := apart go (fun sh => action (sh.setChannel 1 (some (.text index)))) inner
  ({ after with channels := sh.channels }, (after.textAt index).toList)

/-- What a script that begins in a line writes, without the ends of lines at its end. -/
def captureText (go : Runner) (line : Nat) (script : Raw) (sh : Shell) : Shell × String :=
  let (sh, output) := capture go (runTextFrom go line script) sh
  let text := (output.reverse.dropWhile (· == '\n')).reverse
  (sh, String.ofList (text.filter (· ≠ '\x00')))

/-! ## Bits -/

/-- An element of an expanded word: a character that may be quoted and may divide fields, a place
where there were quotes, or a place where fields are divided in any case. -/
inductive Bit where
  | char (c : Char) (quoted divides : Bool)
  | quotes
  | cut
deriving DecidableEq, Repr, Inhabited

namespace Bit

/-- The characters of a value. -/
def ofValue (quoted : Bool) (value : String) : List Bit :=
  value.toList.map fun c => .char c quoted (!quoted)

/-- The characters of an expanded word, each with whether it is quoted. -/
def chars (bits : List Bit) : List (Char × Bool) :=
  bits.filterMap fun
    | .char c quoted _ => some (c, quoted)
    | .quotes | .cut => none

/-- The text of an expanded word that is not divided. -/
def text (bits : List Bit) : String := String.ofList ((chars bits).map Prod.fst)

/-- The bits of a word in braces. If the braces are quoted, so is all in them, and else all that is
not quoted may divide fields. -/
def inBraces (allQuoted : Bool) (bits : List Bit) : List Bit :=
  bits.map fun
    | .char c quoted _ => .char c (allQuoted || quoted) (!(allQuoted || quoted))
    | bit => bit

/-- The separators that are blank count as one, however many there are. -/
def isSoft (c : Char) : Bool := c == ' ' || c == '\t' || c == '\n'

/-- The field that has been begun, if there is one; its characters are held in reverse. -/
def field (current : Option (List (Char × Bool))) : List (List (Char × Bool)) :=
  current.toList.map List.reverse

/-- The fields of an expanded word, `current` being the one that has been begun. After a blank
separator (`soft`) another one belongs to the same division. -/
def fieldsFrom (separators : List Char) (current : Option (List (Char × Bool))) (soft : Bool) :
    List Bit → List (List (Char × Bool))
  | [] => field current
  | .quotes :: rest => fieldsFrom separators (some (current.getD [])) false rest
  | .cut :: rest => field current ++ fieldsFrom separators none false rest
  | .char c quoted divides :: rest =>
    if divides && separators.contains c then
      if current.isSome then field current ++ fieldsFrom separators none (isSoft c) rest
      else if isSoft c || soft then fieldsFrom separators none (isSoft c && soft) rest
      else [] :: fieldsFrom separators none false rest
    else fieldsFrom separators (some ((c, quoted) :: current.getD [])) false rest

end Bit

/-! ## Pieces -/

/-- The bits of the value of a parameter. The arguments are fields of their own, except as one
quoted text. -/
def valueBits (sh : Shell) (name : String) (quoted : Bool) : List Bit :=
  if name = "@" ∨ (name = "*" ∧ !quoted) then
    ((sh.arguments.map (Bit.ofValue quoted)).intersperse [.cut]).flatten
  else if name = "*" then
    Bit.ofValue true ((String.ofList (sh.separators.take 1)).intercalate sh.arguments)
  else Bit.ofValue quoted ((sh.value? name).getD "")

/-- Whether a parameter that is not set ends the shell. -/
def isMissing (sh : Shell) (name : String) : Bool :=
  sh.hasOption 'u' && (sh.value? name).isNone && name != "@" && name != "*"

/-- The expansion of a piece, given that of the words in it. -/
def expandPiece (go : Runner) (word : Mode → Raw → Shell → Shell × List Bit) (piece : Piece)
    (sh : Shell) : Shell × List Bit :=
  match piece with
  | .char c quoted => (sh, [.char c quoted false])
  | .quotes => (sh, [.quotes])
  | .output script inPlace quoted =>
    let (sh, text) := captureText go (if inPlace then sh.line else 1) script sh
    (sh, Bit.ofValue quoted text)
  | .number expression quoted =>
    let (sh, bits) := word .here expression sh
    match Arithmetic.evalText sh.bindings (Bit.text bits).toList with
    | .ok (value, bindings) => ({ sh with bindings }, Bit.ofValue quoted (toString value))
    | .error fault => (sh.fail (fault.text (Bit.text bits)), [])
  | .value name treatment quoted =>
    let mode : Mode := if quoted then .double else .plain
    let isSet (ifEmpty : Bool) : Bool := match sh.value? name with
      | some value => !(ifEmpty && value.isEmpty)
      | none => false
    let cut (f : List Wildcard → List Char → List Char) (pattern : Raw) : Shell × List Bit :=
      let (sh, bits) := word .plain pattern sh
      let value := ((sh.value? name).getD "").toList
      (sh, Bit.ofValue quoted (String.ofList (f (Wildcard.ofText 0 (Bit.chars bits)) value)))
    match treatment with
    | .plain =>
      if sh.isMissing name then (sh.fail (name ++ ": parameter not set"), [])
      else (sh, sh.valueBits name quoted)
    | .length => (sh, Bit.ofValue quoted (toString ((sh.value? name).getD "").length))
    | .orDefault ifEmpty text =>
      if isSet ifEmpty then (sh, sh.valueBits name quoted)
      else
        let (sh, bits) := word mode text sh
        (sh, Bit.inBraces quoted bits)
    | .orAssigned ifEmpty text =>
      if isSet ifEmpty then (sh, sh.valueBits name quoted)
      else
        let (sh, bits) := word mode text sh
        (sh.assign name (Bit.text bits), Bit.ofValue quoted (Bit.text bits))
    | .replaced ifEmpty text =>
      if isSet ifEmpty then
        let (sh, bits) := word mode text sh
        (sh, Bit.inBraces quoted bits)
      else (sh, [])
    | .orFailure ifEmpty text =>
      if isSet ifEmpty then (sh, sh.valueBits name quoted)
      else
        let (sh, bits) := word mode text sh
        let message := if text.isEmpty then "parameter not set" else Bit.text bits
        (sh.fail (name ++ ": " ++ message), [])
    | .withoutStart longest pattern => cut (Wildcard.withoutStart longest) pattern
    | .withoutEnd longest pattern => cut (Wildcard.withoutEnd longest) pattern
    | .unknown => (sh.fail "Bad substitution", [])

/-! ## Words -/

/-- Does something with the elements of a list in order, and gives the results one after another.
A shell that has stopped does nothing more. -/
def inTurn {α β : Type} (f : α → Shell → Shell × List β) : List α → Shell → Shell × List β
  | [], sh => (sh, [])
  | a :: as, sh =>
    if sh.stop.isSome then (sh, [])
    else
      let (sh, first) := f a sh
      let (sh, others) := inTurn f as sh
      (sh, first ++ others)

/-- The home directory that a tilde at the start of a word names, and the rest of the word. -/
def home? (sh : Shell) (text : Raw) : Option (String × Raw) :=
  match text with
  | '~' :: rest =>
    let user := rest.takeWhile (· ≠ '/')
    let directory := if user.isEmpty then sh.bindings.lookup "HOME"
      else if user = "root".toList then some "/root" else none
    directory.map fun directory => (directory, rest.drop user.length)
  | _ => none

/-- The expansion of a word in which words stand within each other up to `n` deep. -/
def expandUpTo (go : Runner) : Nat → Mode → Raw → Shell → Shell × List Bit
  | 0, _, _, sh => (sh, [])
  | n + 1, mode, text, sh =>
    let (directory, rest) := ((if mode = .plain then sh.home? text else none).getD ("", text))
    let (sh, bits) := inTurn (expandPiece go (expandUpTo go n)) (pieces mode 0 rest) sh
    (sh, Bit.ofValue true directory ++ bits)

/-- The expansion of a word. A word within another is shorter. -/
def expand (go : Runner) (mode : Mode) (text : Raw) (sh : Shell) : Shell × List Bit :=
  expandUpTo go (text.length + 1) mode text sh

/-- The text of a word that is not divided. -/
def wordText (go : Runner) (mode : Mode) (text : Raw) (sh : Shell) : Shell × String :=
  let (sh, bits) := expand go mode text sh
  (sh, Bit.text bits)

/-- The fields of a word. The quoted list of no arguments is no field at all, and a field with
patterns stands for files unless an option says otherwise. -/
def wordFields (go : Runner) (text : Raw) (sh : Shell) : Shell × List String :=
  let (sh, bits) := expand go .plain text sh
  if sh.arguments.isEmpty && pieces .plain 0 text == [.quotes, .value "@" .plain true] then (sh, [])
  else
    let fields := Bit.fieldsFrom sh.separators none false bits
    (sh, fields.flatMap fun field =>
      if sh.hasOption 'f' then [String.ofList (field.map Prod.fst)] else glob sh.world.tree field)

/-- The fields of words. -/
def fields (go : Runner) (words : List Raw) (sh : Shell) : Shell × List String :=
  inTurn (wordFields go) words sh

end Resin.Shell
