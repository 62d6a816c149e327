import Resin.Diagnostic.Cause
import Resin.Text.Blank
import Resin.Text.Cut

/-!
# Lexemes

A lexeme is the piece of text at the front of a source that is read as one token, or that cannot
be read. `Lexeme.front` reads it and tells how many characters it has, so every lexeme has at
least one.
-/

namespace Resin

/-- The reading of a piece of text, and how many characters it has after its first. -/
structure Lexeme where
  reading : Except Cause Token
  more : Nat

namespace Lexeme

/-- The characters of a word. -/
def isWordChar (c : Char) : Bool :=
  c.isAlpha || c == '_'

/-- A word is as long as it can be. -/
def word (first : Char) (rest : List Char) : Lexeme :=
  let tail := rest.takeWhile isWordChar
  ⟨.ok (.ofWord (String.ofList (first :: tail))), tail.length⟩

/-- A number has digits, and after a point any number of digits more. -/
def number (first : Char) (rest : List Char) : Lexeme :=
  let whole := rest.takeWhile Char.isDigit
  match rest.drop whole.length with
  | '.' :: after =>
    let fraction := after.takeWhile Char.isDigit
    ⟨.ok (.number (.ofParts (first :: whole) fraction)), whole.length + 1 + fraction.length⟩
  | _ => ⟨.ok (.number (.ofParts (first :: whole) [])), whole.length⟩

/-- A string literal ends at the next quote of its own kind, and nothing in it is an escape. An
unterminated one takes all of the text. -/
def quoted (quote : Quote) (rest : List Char) : Lexeme :=
  match Text.cut? [quote.char] rest with
  | some (content, _) => ⟨.ok (.text (String.ofList content) quote), content.length + 1⟩
  | none => ⟨.error .unterminatedString, rest.length⟩

/-- A raw block is opened by `@js :~`, with any blanks before the colon, and closed by `~:`. An
unterminated one takes all of the text; a malformed opening takes its first character only. -/
def raw (rest : List Char) : Lexeme :=
  match rest with
  | 'j' :: 's' :: tail =>
    match Text.trimStart tail with
    | ':' :: '~' :: body =>
      match Text.cut? ['~', ':'] body with
      | some (code, after) => ⟨.ok (.raw (String.ofList code)), rest.length - after.length⟩
      | none => ⟨.error .unterminatedRawBlock, rest.length⟩
    | _ => ⟨.error .malformedRawBlock, 0⟩
  | _ => ⟨.error .malformedRawBlock, 0⟩

/-- A symbol is as long as it can be, and a colon with the word `input` is the input token. What
starts no symbol is an unknown character. -/
def symbol (first : Char) (rest : List Char) : Lexeme :=
  if first = ':' ∧ rest.takeWhile isWordChar = "input".toList then ⟨.ok .input, 5⟩
  else match Symbol.longest? (first :: rest) with
    | some s => ⟨.ok (.symbol s), s.spelling.length - 1⟩
    | none => ⟨.error (.unknownCharacter first), 0⟩

/-- The lexeme at the front of a text. -/
def front (first : Char) (rest : List Char) : Lexeme :=
  if isWordChar first then word first rest
  else if first.isDigit then number first rest
  else match Quote.ofChar? first with
    | some quote => quoted quote rest
    | none => if first = '@' then raw rest else symbol first rest

end Lexeme

end Resin
