import Resin.Token.Basic

/-!
# Operators

The binary operators with their tokens, their precedence levels and their spelling in a script,
and the two signs.
-/

namespace Resin

/-- A binary operator. -/
inductive BinaryOp where
  | add | sub | mul | div | mod | power
  | equal | strictEqual | notEqual | strictNotEqual
  | less | greater | lessEqual | greaterEqual
  | and | or
deriving DecidableEq, Repr, Inhabited

namespace BinaryOp

/-- Every binary operator. -/
def list : List BinaryOp :=
  [.add, .sub, .mul, .div, .mod, .power, .equal, .strictEqual, .notEqual, .strictNotEqual,
    .less, .greater, .lessEqual, .greaterEqual, .and, .or]

/-- The token that writes an operator. -/
def token : BinaryOp → Token
  | .add => .symbol .plus
  | .sub => .symbol .minus
  | .mul => .symbol .star
  | .div => .symbol .slash
  | .mod => .symbol .percent
  | .power => .symbol .power
  | .equal => .symbol .equal
  | .strictEqual => .symbol .strictEqual
  | .notEqual => .symbol .notEqual
  | .strictNotEqual => .symbol .strictNotEqual
  | .less => .symbol .less
  | .greater => .symbol .greater
  | .lessEqual => .symbol .lessEqual
  | .greaterEqual => .symbol .greaterEqual
  | .and => .keyword .and
  | .or => .keyword .or

/-- How tightly an operator binds its operands. Operators of one level group to the left. -/
def level : BinaryOp → Nat
  | .or => 1
  | .and => 2
  | .equal | .strictEqual | .notEqual | .strictNotEqual
  | .less | .greater | .lessEqual | .greaterEqual => 3
  | .add | .sub => 4
  | .mul | .div | .mod | .power => 5

/-- How a script writes an operator. -/
def script : BinaryOp → String
  | .add => "+"
  | .sub => "-"
  | .mul => "*"
  | .div => "/"
  | .mod => "%"
  | .power => "**"
  | .equal => "=="
  | .strictEqual => "==="
  | .notEqual => "!="
  | .strictNotEqual => "!=="
  | .less => "<"
  | .greater => ">"
  | .lessEqual => "<="
  | .greaterEqual => ">="
  | .and => "&&"
  | .or => "||"

/-- The operator that a token writes, if any. -/
def ofToken? (token : Token) : Option BinaryOp :=
  list.find? fun op => op.token == token

/-- An operator is found under its own token. -/
@[simp] theorem ofToken?_token (op : BinaryOp) : ofToken? op.token = some op := by
  cases op <;> decide

end BinaryOp

/-- A sign in front of an expression. -/
inductive Sign where
  | plus | minus
deriving DecidableEq, Repr, Inhabited

namespace Sign

/-- The sign that a token writes, if any. -/
def ofToken? : Token → Option Sign
  | .symbol .plus => some .plus
  | .symbol .minus => some .minus
  | _ => none

/-- How a sign is written, in a program and in a script. -/
def spelling : Sign → String
  | .plus => "+"
  | .minus => "-"

end Sign

end Resin
