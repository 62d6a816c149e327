import Resin.Shell.State

/-!
# Tests

The command that compares texts and numbers and looks at files. A test is read by recursive descent
over its parts; if it is not well formed, there is a reason for that instead of an answer.
-/

namespace Resin.Shell.Test

/-- What a reader gives: an answer and the parts that are left. -/
abbrev Reading := Except String (Bool × List String)

/-- A number in a comparison. -/
def number (text : String) : Except String Int :=
  let trimmed := (text.toList.dropWhile Char.isWhitespace).reverse.dropWhile Char.isWhitespace
  match Text.signed64? trimmed.reverse with
  | some value => .ok value
  | none => .error ("Illegal number: " ++ text)

/-- The operators between two parts. -/
def binaryOperators : List String :=
  ["=", "!=", "<", ">", "-eq", "-ne", "-lt", "-le", "-gt", "-ge", "-nt", "-ot", "-ef"]

/-- The operators in front of a part. -/
def unaryOperators : List String :=
  ["-n", "-z", "-b", "-c", "-d", "-e", "-f", "-g", "-G", "-h", "-k", "-L", "-O", "-p", "-r", "-s",
    "-S", "-t", "-u", "-w", "-x"]

/-- The answer of an operator between two parts. -/
def binary (sh : Shell) (a operator b : String) : Except String Bool :=
  let numeric (f : Int → Int → Bool) : Except String Bool := do
    return f (← number a) (← number b)
  let place? (path : String) : Option Route :=
    match sh.world.tree.resolve (Text.ofOctets path.toList) with
    | .ok place => (sh.world.tree.entry? place).map fun _ => place
    | .error _ => none
  match operator with
  | "=" => .ok (a == b)
  | "!=" => .ok (a != b)
  | "<" => .ok (a < b)
  | ">" => .ok (b < a)
  | "-eq" => numeric fun a b => a == b
  | "-ne" => numeric fun a b => a != b
  | "-lt" => numeric fun a b => a < b
  | "-le" => numeric fun a b => a ≤ b
  | "-gt" => numeric fun a b => a > b
  | "-ge" => numeric fun a b => a ≥ b
  | "-ef" => .ok ((place? a).isSome && place? a == place? b)
  | _ => .ok false

/-- The answer of an operator in front of a part. -/
def unary (sh : Shell) (operator text : String) : Bool :=
  let path := Text.ofOctets text.toList
  let tree := sh.world.tree
  let isDevice := match tree.resolve path with
    | .ok place => Layout.isDevice place
    | .error _ => false
  let isLink := match tree.links.lookup (Layout.place path) with
    | some _ => path.toList.head? == some '/'
    | none => false
  match operator, tree.locate path with
  | "-n", _ => !text.isEmpty
  | "-z", _ => text.isEmpty
  | "-h", _ | "-L", _ => isLink
  | "-e", .ok _ | "-r", .ok _ | "-w", .ok _ | "-O", .ok _ | "-G", .ok _ => true
  | "-d", .ok .directory | "-x", .ok .directory | "-x", .ok (.program _) => true
  | "-f", .ok (.file _) => !isDevice
  | "-c", .ok (.file _) => isDevice
  | "-f", .ok (.program _) | "-s", .ok (.program _) | "-s", .ok .directory => true
  | "-s", .ok (.file bytes) => bytes.size != 0
  | _, _ => false

/-- Whether the first part, though it reads as an operator, is compared like any text. -/
def isOperand : List String → Bool
  | _ :: operator :: operand :: _ => binaryOperators.contains operator && operand != ")"
  | [_] | [] => true
  | _ => false

mutual

/-- Reads tests of which one has to hold. -/
def either (sh : Shell) : Nat → List String → Reading
  | 0, _ => .error "too deep"
  | n + 1, parts => do
    let (a, rest) ← both sh n parts
    if rest.head? = some "-o" then
      let (b, rest) ← either sh n rest.tail
      return (a || b, rest)
    else return (a, rest)

/-- Reads tests that all have to hold. -/
def both (sh : Shell) : Nat → List String → Reading
  | 0, _ => .error "too deep"
  | n + 1, parts => do
    let (a, rest) ← single sh n parts
    if rest.head? = some "-a" then
      let (b, rest) ← both sh n rest.tail
      return (a && b, rest)
    else return (a, rest)

/-- Reads a test without joining operators. -/
def single (sh : Shell) : Nat → List String → Reading
  | 0, _ => .error "too deep"
  | n + 1, parts =>
    match parts with
    | [] => .ok (false, [])
    | first :: rest =>
      if first = "!" ∧ !isOperand parts then do
        let (a, rest) ← single sh n rest
        return (!a, rest)
      else if first = "(" ∧ !isOperand parts then do
        let (a, rest) ← either sh n rest
        if rest.head? = some ")" then return (a, rest.tail)
        else .error "closing paren expected"
      else if unaryOperators.contains first ∧ !isOperand parts then
        match rest with
        | text :: rest => .ok (unary sh first text, rest)
        | [] => .error (first ++ ": argument expected")
      else match rest with
        | operator :: more =>
          if binaryOperators.contains operator then
            match more with
            | b :: rest => do return (← binary sh first operator b, rest)
            | [] => .error (operator ++ ": argument expected")
          else .ok (!first.isEmpty, rest)
        | [] => .ok (!first.isEmpty, [])

end

/-- The answer of a test that is read from its start to its end. -/
def whole (sh : Shell) (parts : List String) : Except String Bool := do
  let (a, rest) ← either sh (4 * parts.length + 4) parts
  if rest.isEmpty then return a
  else .error (parts.getD (parts.length - rest.length - 1) "" ++ ": unexpected operator")

/-- The answer of a whole test. Three or four parts are read by their number first: a negation is
that of the rest, and parentheses around the rest are dropped. -/
def answer (sh : Shell) : List String → Except String Bool
  | [] => .ok false
  | first :: rest =>
    let isComparison := rest.length = 2 && rest.head?.any binaryOperators.contains
    if (rest.length = 2 ∨ rest.length = 3) ∧ !isComparison then
      if first = "(" ∧ rest.getLast? = some ")" then whole sh rest.dropLast
      else if first = "!" then (answer sh rest).map (!·)
      else whole sh (first :: rest)
    else whole sh (first :: rest)

end Resin.Shell.Test
