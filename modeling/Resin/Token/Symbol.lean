/-!
# Symbols

Operators and brackets. A symbol is read greedily: `Symbol.longest?` tries the longer spellings
first.
-/

namespace Resin

/-- A token written with punctuation only. -/
inductive Symbol where
  | strictEqual | strictNotEqual | equal | notEqual | greaterEqual | lessEqual | arrow | power
  | assign | plus | minus | star | slash | percent | greater | less
  | openBrace | closeBrace | openBracket | closeBracket | openParen | closeParen
  | semicolon | comma | dot | colon
deriving DecidableEq, Repr, Inhabited

namespace Symbol

/-- How a symbol is written. -/
def spelling : Symbol → String
  | .strictEqual => "==="
  | .strictNotEqual => "!=="
  | .equal => "=="
  | .notEqual => "!="
  | .greaterEqual => ">="
  | .lessEqual => "<="
  | .arrow => "->"
  | .power => "**"
  | .assign => "="
  | .plus => "+"
  | .minus => "-"
  | .star => "*"
  | .slash => "/"
  | .percent => "%"
  | .greater => ">"
  | .less => "<"
  | .openBrace => "\x7b"
  | .closeBrace => "\x7d"
  | .openBracket => "["
  | .closeBracket => "]"
  | .openParen => "("
  | .closeParen => ")"
  | .semicolon => ";"
  | .comma => ","
  | .dot => "."
  | .colon => ":"

/-- Every symbol, longer spellings first. -/
def list : List Symbol :=
  [.strictEqual, .strictNotEqual, .equal, .notEqual, .greaterEqual, .lessEqual, .arrow, .power,
    .assign, .plus, .minus, .star, .slash, .percent, .greater, .less,
    .openBrace, .closeBrace, .openBracket, .closeBracket, .openParen, .closeParen,
    .semicolon, .comma, .dot, .colon]

/-- The symbol with the longest spelling that the text starts with. -/
def longest? (cs : List Char) : Option Symbol :=
  list.find? fun s => s.spelling.toList.isPrefixOf cs

/-- A symbol alone is read as itself. -/
theorem longest?_spelling (s : Symbol) : longest? s.spelling.toList = some s := by
  cases s <;> decide

end Symbol

end Resin
