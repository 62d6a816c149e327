import Resin.Shell.Item

/-!
# Words

A word as it stands in a script is read as pieces: characters, and what is put in the place of a
dollar sign or of back quotes when the word is used.
-/

namespace Resin.Shell

/-- What is done with the value of a parameter. A flag on a default tells that an empty value
counts as none, and one on a pattern that the longest match is cut off. -/
inductive Treatment where
  | plain
  | length
  | orDefault (ifEmpty : Bool) (word : Raw)
  | orAssigned (ifEmpty : Bool) (word : Raw)
  | replaced (ifEmpty : Bool) (word : Raw)
  | withoutStart (longest : Bool) (pattern : Raw)
  | withoutEnd (longest : Bool) (pattern : Raw)
  | orFailure (ifEmpty : Bool) (word : Raw)
  | unknown
deriving DecidableEq, Repr, Inhabited

/-- A piece of a word. A pair of quotes makes a word even if nothing stands in it. A script that is
read in its place goes on with the numbers of the lines. -/
inductive Piece where
  | char (c : Char) (quoted : Bool)
  | quotes
  | value (name : String) (treatment : Treatment) (quoted : Bool)
  | output (script : Raw) (inPlace quoted : Bool)
  | number (expression : Raw) (quoted : Bool)
deriving DecidableEq, Repr, Inhabited

/-- Where in a word a character stands. In a text given in the script, double quotes are
characters like others. -/
inductive Mode where
  | plain | single | double | here
deriving DecidableEq, Repr, Inhabited

/-- The treatment that stands behind the name of a parameter in braces. -/
def treatment : Raw → Treatment
  | ':' :: '-' :: word => .orDefault true word
  | '-' :: word => .orDefault false word
  | ':' :: '=' :: word => .orAssigned true word
  | '=' :: word => .orAssigned false word
  | ':' :: '+' :: word => .replaced true word
  | '+' :: word => .replaced false word
  | '#' :: '#' :: pattern => .withoutStart true pattern
  | '#' :: pattern => .withoutStart false pattern
  | '%' :: '%' :: pattern => .withoutEnd true pattern
  | '%' :: pattern => .withoutEnd false pattern
  | ':' :: '?' :: word => .orFailure true word
  | '?' :: word => .orFailure false word
  | [] => .plain
  | _ => .unknown

/-- The piece for what stands in braces. -/
def bracedPiece (quoted : Bool) (inside : Raw) : Piece :=
  match inside with
  | '#' :: c :: name => .value (String.ofList (c :: name)) .length quoted
  | _ =>
    let name := parameterName inside
    if name.isEmpty then .value "" .unknown quoted
    else .value (String.ofList name) (treatment (inside.drop name.length)) quoted

/-- The piece for what stands in parentheses: a second pair of them holds an expression. -/
def parenthesizedPiece (quoted : Bool) (inside : Raw) : Piece :=
  if inside.head? = some '(' ∧ inside.getLast? = some ')' then
    .number inside.tail.dropLast quoted
  else .output inside true quoted

/-- The piece that a dollar sign in front of a text begins, and its length in that text. -/
def dollarPiece? (quoted : Bool) (text : Raw) : Option (Piece × Nat) :=
  match text with
  | '(' :: rest =>
    let length := enclosedLength .parentheses rest
    some (parenthesizedPiece quoted (rest.take (length - 1)), length + 1)
  | '{' :: rest =>
    let length := enclosedLength (bracesAround quoted rest) rest
    some (bracedPiece quoted (rest.take (length - 1)), length + 1)
  | c :: _ =>
    -- only one digit is read without braces
    let name := if c.isDigit then [c] else parameterName text
    if name.isEmpty then none
    else some (.value (String.ofList name) .plain quoted, name.length)
  | [] => none

/-- The script in back quotes, where a backslash escapes itself, a dollar sign and a back quote. -/
def backquoted : Raw → Raw
  | '\\' :: c :: rest =>
    if ['\\', '$', '\x60'].contains c then c :: backquoted rest else '\\' :: c :: backquoted rest
  | c :: rest => c :: backquoted rest
  | [] => []

/-- The pieces of a text of which the first `skip` characters are already dealt with. -/
def pieces (mode : Mode) : Nat → Raw → List Piece
  | _, [] => []
  | skip + 1, _ :: cs => pieces mode skip cs
  | 0, c :: cs =>
    let quoted := mode ≠ .plain
    let next := cs.head?
    if mode = .single then
      if c = '\x27' then pieces .plain 0 cs else .char c true :: pieces .single 0 cs
    else if c = '\x27' ∧ mode = .plain then .quotes :: pieces .single 0 cs
    else if c = '\x22' ∧ mode = .plain then .quotes :: pieces .double 0 cs
    else if c = '\x22' ∧ mode = .double then pieces .plain 0 cs
    else if c = '\\' then
      match next with
      | some '\n' => pieces mode 1 cs
      | some d =>
        if mode = .plain ∨ d = '$' ∨ d = '\x60' ∨ d = '\\' ∨ (d = '\x22' ∧ mode = .double) then
          .char d true :: pieces mode 1 cs
        else .char c quoted :: pieces mode 0 cs
      | none => .char c quoted :: pieces mode 0 cs
    else if c = '$' then
      match dollarPiece? quoted cs with
      | some (piece, length) => piece :: pieces mode length cs
      | none => .char c quoted :: pieces mode 0 cs
    else if c = '\x60' then
      let length := enclosedLength .backquotes cs
      .output (backquoted (cs.take (length - 1))) false quoted :: pieces mode length cs
    else .char c quoted :: pieces mode 0 cs

end Resin.Shell
