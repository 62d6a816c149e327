import Resin.Shell.Word
import Resin.Text.Integer

/-!
# Arithmetic of the shell

Expressions on 64-bit integers, with variables and assignments to them.
-/

namespace Resin.Shell

/-- An arithmetic expression. -/
inductive Arithmetic where
  | number (value : Int)
  | parameter (name : String)
  | unary (operator : String) (operand : Arithmetic)
  | binary (operator : String) (left right : Arithmetic)
  | choice (condition yes no : Arithmetic)
  | assignment (name operator : String) (value : Arithmetic)
deriving DecidableEq, Repr, Inhabited

/-- What can be wrong with an expression. -/
inductive ArithmeticFault where
  | expected (what : String)
  | divisionByZero
  | notNumber (text : String)
deriving DecidableEq, Repr, Inhabited

/-- The text of a fault in an expression. -/
def ArithmeticFault.text (expression : String) : ArithmeticFault → String
  | .expected what =>
    "arithmetic expression: expecting " ++ what ++ ": \x22" ++ expression ++ "\x22"
  | .divisionByZero => "arithmetic expression: division by zero: \x22" ++ expression ++ "\x22"
  | .notNumber text => "Illegal number: " ++ text

/-- A value brought into the range of a signed 64-bit word. -/
def wrapped (value : Int) : Int :=
  let size : Int := (Nat.pow 2 64 : Nat)
  let half : Int := (Nat.pow 2 63 : Nat)
  (value + half) % size - half

/-- The value of a digit in a base up to sixteen. -/
def digitIn? (base : Nat) (c : Char) : Option Nat :=
  let value := if c.isDigit then c.toNat - '0'.toNat
    else if 'a' ≤ c ∧ c ≤ 'f' then c.toNat - 'a'.toNat + 10
    else if 'A' ≤ c ∧ c ≤ 'F' then c.toNat - 'A'.toNat + 10
    else 16
  if value < base then some value else none

/-- The value of digits in a base. -/
def numberIn? (base : Nat) (digits : List Char) : Option Int :=
  if digits.isEmpty then none
  else (digits.mapM (digitIn? base)).map fun values =>
    ((values.foldl (fun n d => base * n + d) 0 : Nat) : Int)

/-- The value of a constant: a leading zero makes it octal, and one with an x hexadecimal. -/
def constant? : List Char → Option Int
  | '0' :: 'x' :: digits | '0' :: 'X' :: digits => numberIn? 16 digits
  | ['0'] => some 0
  | '0' :: digits => numberIn? 8 digits
  | digits => numberIn? 10 digits

/-- The value of a constant with an optional sign. -/
def signedConstant? : List Char → Option Int
  | '-' :: digits => (constant? digits).map (-·)
  | '+' :: digits => constant? digits
  | digits => constant? digits

namespace Arithmetic

/-- A token of an expression. -/
inductive Token where
  | number (value : Int)
  | name (name : String)
  | sign (text : String)
deriving DecidableEq, Repr, Inhabited

/-- The signs, with each before those that it begins with. -/
def signs : List String :=
  ["<<=", ">>=", "<<", ">>", "<=", ">=", "==", "!=", "&&", "||", "+=", "-=", "*=", "/=", "%=",
    "&=", "|=", "^=", "+", "-", "*", "/", "%", "<", ">", "&", "|", "^", "!", "~", "(", ")", "?",
    ":", "="]

/-- The longest constant at the start of a word that begins with a digit, and its length. -/
def longestConstant (word : List Char) : Int × Nat :=
  let lengths := (List.range (word.length + 1)).reverse
  (lengths.findSome? fun n => (constant? (word.take n)).map fun value => (value, n)).getD (0, 1)

/-- The tokens of an expression of which the first `skip` characters are already dealt with. A
character that belongs to none is a sign of its own. -/
def tokens : Nat → List Char → List Token
  | _, [] => []
  | skip + 1, _ :: cs => tokens skip cs
  | 0, c :: cs =>
    let text := c :: cs
    if c.isWhitespace then tokens 0 cs
    else if c.isDigit then
      let (value, length) := longestConstant (text.takeWhile isNameChar)
      .number value :: tokens (length - 1) cs
    else if isNameChar c then
      let word := text.takeWhile isNameChar
      .name (String.ofList word) :: tokens (word.length - 1) cs
    else
      let sign := (signs.find? fun sign => sign.toList.isPrefixOf text).getD c.toString
      .sign sign :: tokens (sign.length - 1) cs

/-- The operators with two operands, the loosest first. -/
def levels : List (List String) :=
  [["||"], ["&&"], ["|"], ["^"], ["&"], ["==", "!="], ["<", "<=", ">", ">="], ["<<", ">>"],
    ["+", "-"], ["*", "/", "%"]]

/-- How tightly an operator binds. -/
def level? (operator : String) : Option Nat :=
  levels.findIdx? (·.contains operator)

/-- The operators that assign. -/
def assignments : List String :=
  ["=", "+=", "-=", "*=", "/=", "%=", "<<=", ">>=", "&=", "|=", "^="]

/-- What a reader gives. -/
abbrev Reading := Except ArithmeticFault (Arithmetic × List Token)

/-- The tokens after a sign. -/
def pastSign (sign : String) (tokens : List Token) : Except ArithmeticFault (List Token) :=
  if tokens.head? = some (.sign sign) then .ok tokens.tail
  else .error (.expected ("\x27" ++ sign ++ "\x27"))

mutual

/-- Reads an expression: an assignment, or operators with a choice behind them. -/
def expression : Nat → List Token → Reading
  | 0, _ => .error (.expected "primary")
  | n + 1, tokens =>
    let other : Reading := do
      let (condition, rest) ← operations n 0 tokens
      if rest.head? = some (.sign "?") then
        let (yes, rest) ← expression n rest.tail
        let (no, rest) ← expression n (← pastSign ":" rest)
        return (.choice condition yes no, rest)
      else return (condition, rest)
    match tokens with
    | .name name :: .sign sign :: rest =>
      if assignments.contains sign then do
        let (value, rest) ← expression n rest
        return (.assignment name (String.ofList sign.toList.dropLast) value, rest)
      else other
    | _ => other

/-- Reads operands joined by operators that bind at least so tightly. -/
def operations : Nat → Nat → List Token → Reading
  | 0, _, _ => .error (.expected "primary")
  | n + 1, least, tokens => do
    let (left, rest) ← operand n tokens
    operationsFrom n least left rest

/-- Reads the operators after a first operand. -/
def operationsFrom : Nat → Nat → Arithmetic → List Token → Reading
  | 0, _, _, _ => .error (.expected "primary")
  | n + 1, least, left, tokens =>
    match tokens with
    | .sign sign :: rest =>
      match level? sign with
      | some level =>
        if level < least then .ok (left, tokens)
        else do
          let (right, rest) ← operations n (level + 1) rest
          operationsFrom n least (.binary sign left right) rest
      | none => .ok (left, tokens)
    | _ => .ok (left, tokens)

/-- Reads an operand. -/
def operand : Nat → List Token → Reading
  | 0, _ => .error (.expected "primary")
  | n + 1, tokens =>
    match tokens with
    | .number value :: rest => .ok (.number value, rest)
    | .name name :: rest => .ok (.parameter name, rest)
    | .sign "(" :: rest => do
      let (inner, rest) ← expression n rest
      return (inner, ← pastSign ")" rest)
    | .sign sign :: rest =>
      if ["+", "-", "!", "~"].contains sign then do
        let (inner, rest) ← operand n rest
        return (.unary sign inner, rest)
      else .error (.expected "primary")
    | [] => .error (.expected "primary")

end

/-- The expression that a text is; an empty one is zero. -/
def ofText (text : List Char) : Except ArithmeticFault Arithmetic := do
  let tokens := tokens 0 text
  if tokens.isEmpty then return .number 0
  let (result, rest) ← expression (8 * tokens.length + 8) tokens
  if rest.isEmpty then .ok result else .error (.expected "EOF")

/-- The number for a truth value. -/
def truth (b : Bool) : Int := if b then 1 else 0

/-- A bitwise operation on words. -/
def bitwise (f : Nat → Nat → Nat) (a b : Int) : Int :=
  let size : Int := (Nat.pow 2 64 : Nat)
  f (a % size).toNat (b % size).toNat

/-- The value of an operator at two values. -/
def result (operator : String) (a b : Int) : Except ArithmeticFault Int :=
  match operator with
  | "+" => .ok (wrapped (a + b))
  | "-" => .ok (wrapped (a - b))
  | "*" => .ok (wrapped (a * b))
  | "/" => if b = 0 then .error .divisionByZero else .ok (wrapped (a.tdiv b))
  | "%" => if b = 0 then .error .divisionByZero else .ok (a.tmod b)
  | "<<" => .ok (wrapped (a * (Nat.pow 2 (b % 64).toNat : Nat)))
  | ">>" => .ok (a.fdiv (Nat.pow 2 (b % 64).toNat : Nat))
  | "<" => .ok (truth (a < b))
  | "<=" => .ok (truth (a ≤ b))
  | ">" => .ok (truth (a > b))
  | ">=" => .ok (truth (a ≥ b))
  | "==" => .ok (truth (a == b))
  | "!=" => .ok (truth (a != b))
  | "&" => .ok (wrapped (bitwise Nat.land a b))
  | "|" => .ok (wrapped (bitwise Nat.lor a b))
  | "^" => .ok (wrapped (bitwise Nat.xor a b))
  | _ => .ok b

/-- The variables of a shell with their values. -/
abbrev Bindings := List (String × String)

/-- The value of a variable as a number. One that is empty or not set is zero. -/
def valueOf (bindings : Bindings) (name : String) : Except ArithmeticFault Int :=
  let text := (bindings.lookup name).getD ""
  let trimmed := (text.toList.dropWhile Char.isWhitespace).reverse.dropWhile Char.isWhitespace
  if trimmed.isEmpty then .ok 0
  else match signedConstant? trimmed.reverse with
    | some value => .ok value
    | none => .error (.notNumber text)

/-- The value of an expression, and the variables after it. The second operand of a logical
operator is used only if the first does not decide. -/
def eval (bindings : Bindings) : Arithmetic → Except ArithmeticFault (Int × Bindings)
  | .number value => .ok (wrapped value, bindings)
  | .parameter name => do return (← valueOf bindings name, bindings)
  | .unary operator operand => do
    let (a, bindings) ← operand.eval bindings
    let value := match operator with
      | "-" => wrapped (-a)
      | "!" => truth (a == 0)
      | "~" => -a - 1
      | _ => a
    return (value, bindings)
  | .binary "&&" left right => do
    let (a, bindings) ← left.eval bindings
    if a = 0 then return (0, bindings)
    let (b, bindings) ← right.eval bindings
    return (truth (b != 0), bindings)
  | .binary "||" left right => do
    let (a, bindings) ← left.eval bindings
    if a ≠ 0 then return (1, bindings)
    let (b, bindings) ← right.eval bindings
    return (truth (b != 0), bindings)
  | .binary operator left right => do
    let (a, bindings) ← left.eval bindings
    let (b, bindings) ← right.eval bindings
    return (← result operator a b, bindings)
  | .choice condition yes no => do
    let (a, bindings) ← condition.eval bindings
    if a ≠ 0 then yes.eval bindings else no.eval bindings
  | .assignment name operator value => do
    let (b, bindings) ← value.eval bindings
    let result ← if operator.isEmpty then .ok b
      else do result operator (← valueOf bindings name) b
    return (result, (name, toString result) :: bindings)

/-- The value of the expression that a text is, and the variables after it. -/
def evalText (bindings : Bindings) (text : List Char) :
    Except ArithmeticFault (Int × Bindings) := do
  (← ofText text).eval bindings

end Arithmetic

end Resin.Shell
