/-!
# Decimal integers

Readers of decimal integers that must fit a 64-bit word, and the value of a run of digits.
-/

namespace Resin.Text

/-- The value of a run of decimal digits, the most significant first. -/
def digitsValue (digits : List Char) : Nat :=
  digits.foldl (fun n d => 10 * n + (d.toNat - '0'.toNat)) 0

/-- The value of a text that is one or more decimal digits and nothing else. -/
def digits? (cs : List Char) : Option Nat :=
  if cs.isEmpty || !cs.all Char.isDigit then none else some (digitsValue cs)

/-- An unsigned integer below `2 ^ 64`, with an optional leading plus sign. -/
def unsigned64? (cs : List Char) : Option Nat :=
  let magnitude := match cs with
    | '+' :: rest => digits? rest
    | _ => digits? cs
  magnitude.filter (· < Nat.pow 2 64)

/-- A signed integer from `-2 ^ 63` below `2 ^ 63`, with an optional sign. -/
def signed64? (cs : List Char) : Option Int :=
  let bound : Int := (Nat.pow 2 63 : Nat)
  let value := match cs with
    | '-' :: rest => (digits? rest).map fun n => -(n : Int)
    | '+' :: rest => (digits? rest).map fun n => (n : Int)
    | _ => (digits? cs).map fun n => (n : Int)
  value.filter fun i => -bound ≤ i && i < bound

end Resin.Text
