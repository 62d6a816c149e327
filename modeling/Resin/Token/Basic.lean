import Resin.Number.Decimal
import Resin.Token.Keyword
import Resin.Token.Symbol

/-!
# Tokens

What a source text is made of, and how a token is named in messages.
-/

namespace Resin

/-- The character that a string literal is written between. -/
inductive Quote where
  | double | single | backtick
deriving DecidableEq, Repr, Inhabited

namespace Quote

/-- The quote as a character. -/
def char : Quote → Char
  | .double => '\x22'
  | .single => '\x27'
  | .backtick => '\x60'

/-- The quote that a character is, if any. -/
def ofChar? (c : Char) : Option Quote :=
  [Quote.double, .single, .backtick].find? fun q => q.char == c

/-- A quote is found under its own character. -/
@[simp] theorem ofChar?_char (q : Quote) : ofChar? q.char = some q := by
  cases q <;> decide

end Quote

/-- A token of the language. The literals `null` and `undefined` share their spelling with types,
and reading a text always takes the type. -/
inductive Token where
  | number (value : Number)
  | text (content : String) (quote : Quote)
  | bool (value : Bool)
  | null
  | undefined
  | input
  | name (word : String)
  | type (type : TypeName)
  | raw (code : String)
  | keyword (keyword : Keyword)
  | symbol (symbol : Symbol)
  | endOfFile
deriving DecidableEq, Repr, Inhabited

namespace Token

/-- The token that a word is: a keyword, a type, a truth value or else a name. -/
def ofWord (word : String) : Token :=
  match Keyword.ofWord? word with
  | some k => .keyword k
  | none =>
    match TypeName.ofWord? word with
    | some t => .type t
    | none =>
      if word = "true" then .bool true
      else if word = "false" then .bool false
      else .name word

/-- Whether two tokens differ at most in what they carry. -/
def kindEq : Token → Token → Bool
  | .number _, .number _ => true
  | .text _ _, .text _ _ => true
  | .bool _, .bool _ => true
  | .name _, .name _ => true
  | .type _, .type _ => true
  | .raw _, .raw _ => true
  | a, b => a = b

/-- How a token is named in a message. -/
def describe : Token → String
  | .number value => "number `" ++ value.text ++ "`"
  | .text content quote =>
    "string " ++ quote.char.toString ++ content ++ quote.char.toString
  | .bool value => "`" ++ (if value then "true" else "false") ++ "`"
  | .null => "'null'"
  | .undefined => "'undefined'"
  | .input => "':input'"
  | .name word => "identifier `" ++ word ++ "`"
  | .type t => "type `" ++ t.spelling ++ "`"
  | .raw _ => "raw block"
  | .keyword k => "'" ++ k.spelling ++ "'"
  | .symbol s => "'" ++ s.spelling ++ "'"
  | .endOfFile => "end of file"

/-- A keyword is read as itself. -/
@[simp] theorem ofWord_keyword (k : Keyword) : ofWord k.spelling = .keyword k := by
  simp [ofWord]

end Token

end Resin
