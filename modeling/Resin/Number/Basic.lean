/-!
# Numbers

A number of the language is an IEEE 754 binary64 value. Programs only carry numbers from their
text to the text of a script, so the type has a reader and a printer and no arithmetic.

`Number.ofRatio` rounds a fraction to the nearest number, a half going to the even neighbour, in
exact integer arithmetic.
-/

namespace Resin

/-- A binary64 value. A finite one is `mantissa * 2 ^ exponent`, its sign kept apart so that zero
has two signs. -/
inductive Number where
  | finite (negative : Bool) (mantissa : Nat) (exponent : Int)
  | infinite (negative : Bool)
  | nan
deriving DecidableEq, Repr, Inhabited

namespace Number

/-- The exponent of the smallest positive number, and of zero. -/
def minExponent : Int := -1074

/-- The exponent of the largest finite number. -/
def maxExponent : Int := 971

/-- A mantissa has fewer than `mantissaBits + 1` binary digits. -/
def mantissaBits : Nat := 53

/-- The natural number nearest to `num / den`; a half goes to the even neighbour. -/
def roundDiv (num den : Nat) : Nat :=
  let quotient := num / den
  let twice := 2 * (num % den)
  if twice < den then quotient
  else if den < twice then quotient + 1
  else if quotient % 2 = 0 then quotient
  else quotient + 1

/-- The integer part of the binary logarithm of `num / den`, both positive. -/
def floorLog (num den : Nat) : Int :=
  let guess : Int := (num.log2 : Int) - (den.log2 : Int)
  if den * Nat.pow 2 guess.toNat ≤ num * Nat.pow 2 (-guess).toNat then guess else guess - 1

/-- The number `mantissa * 2 ^ exponent`, infinite when the exponent is too large. -/
def bounded (mantissa : Nat) (exponent : Int) : Number :=
  if maxExponent < exponent then .infinite false else .finite false mantissa exponent

/-- The number nearest to `num / den`. -/
def ofRatio (num den : Nat) : Number :=
  if num = 0 then .finite false 0 minExponent
  else
    -- the exponent that leaves a mantissa of full length, unless that is too small
    let full := floorLog num den - (mantissaBits - 1 : Nat)
    let exponent := if full ≤ minExponent then minExponent else full
    let mantissa :=
      roundDiv (num * Nat.pow 2 (-exponent).toNat) (den * Nat.pow 2 exponent.toNat)
    -- rounding up may reach the next power of two
    if mantissa = Nat.pow 2 mantissaBits then
      bounded (Nat.pow 2 (mantissaBits - 1)) (exponent + 1)
    else bounded mantissa exponent

/-- The number nearest to `digits * 10 ^ exponent`. -/
def ofDecimal (digits : Nat) (exponent : Int) : Number :=
  ofRatio (digits * Nat.pow 10 exponent.toNat) (Nat.pow 10 (-exponent).toNat)

/-- The number with the opposite sign. -/
def neg : Number → Number
  | .finite negative mantissa exponent => .finite (!negative) mantissa exponent
  | .infinite negative => .infinite (!negative)
  | .nan => .nan

/-- The number one. -/
def one : Number := ofDecimal 1 0

end Number

end Resin
