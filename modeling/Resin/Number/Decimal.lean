import Resin.Number.Basic
import Resin.Text.Integer

/-!
# Decimal text of numbers

A number is written with the fewest digits that read back to it, without an exponent. The digits
come from the exact decimal expansion of the number: as many of its last digits as possible are
rounded away, upwards or downwards, while the rest still reads back.
-/

namespace Resin.Number

open Text

/-- The exact decimal expansion `digits * 10 ^ exponent` of `mantissa * 2 ^ exponent`. -/
def expansion (mantissa : Nat) (exponent : Int) : Nat × Int :=
  (mantissa * Nat.pow 2 exponent.toNat * Nat.pow 5 (-exponent).toNat,
    if exponent ≤ 0 then exponent else 0)

/-- The shortest decimal that reads back to `target`, among those that keep the exact expansion
`digits * 10 ^ exponent` up to at most `dropped` last digits. Of two decimals of the same length the
nearer is taken, and the upper one if both are equally near. -/
def shorten (target : Number) (digits : Nat) (exponent : Int) : Nat → Nat × Int
  | 0 => (digits, exponent)
  | dropped + 1 =>
    let unit := Nat.pow 10 (dropped + 1)
    let lower := digits / unit
    let coarse := exponent + (dropped + 1 : Nat)
    let lowerReads := ofDecimal lower coarse = target
    let upperReads := ofDecimal (lower + 1) coarse = target
    if lowerReads ∧ (2 * (digits % unit) < unit ∨ ¬ upperReads) then (lower, coarse)
    else if upperReads then (lower + 1, coarse)
    else shorten target digits exponent dropped

/-- The fewest digits, with their decimal exponent, that read back to `mantissa * 2 ^ exponent`. -/
def shortest (mantissa : Nat) (exponent : Int) : Nat × Int :=
  let (digits, tens) := expansion mantissa exponent
  shorten (.finite false mantissa exponent) digits tens (Nat.toDigits 10 digits).length

/-- The decimal `digits * 10 ^ exponent` without an exponent: zeros are added on the right or
after the point as needed. -/
def positional (digits : Nat) (exponent : Int) : List Char :=
  let figures := Nat.toDigits 10 digits
  if 0 ≤ exponent then figures ++ List.replicate exponent.toNat '0'
  else
    let places := (-exponent).toNat
    let padded := List.replicate (places + 1 - figures.length) '0' ++ figures
    let whole := padded.length - places
    padded.take whole ++ '.' :: padded.drop whole

/-- The text of a number without its sign. -/
def magnitudeText : Number → List Char
  | .finite _ mantissa exponent =>
    if mantissa = 0 then ['0']
    else
      let (digits, tens) := shortest mantissa exponent
      positional digits tens
  | .infinite _ => ['i', 'n', 'f']
  | .nan => ['N', 'a', 'N']

/-- Whether a number has a minus sign. -/
def isNegative : Number → Bool
  | .finite negative _ _ => negative
  | .infinite negative => negative
  | .nan => false

/-- The text of a number: a sign if it is negative, then the fewest digits that read back. -/
def text (x : Number) : String :=
  String.ofList (if x.isNegative then '-' :: x.magnitudeText else x.magnitudeText)

/-- The number written by a whole part and a fraction, both runs of digits. -/
def ofParts (whole fraction : List Char) : Number :=
  ofDecimal (digitsValue (whole ++ fraction)) (-(fraction.length : Int))

/-- The number nearest to `digits * 10 ^ exponent`, for exponents of any size. -/
def ofScientific (digits : Nat) (exponent : Int) : Number :=
  if digits = 0 then ofDecimal 0 0
  else if 310 < exponent then .infinite false
  else if (Nat.toDigits 10 digits).length + exponent < -400 then ofDecimal 0 0
  else ofDecimal digits exponent

/-- The exponent after a run of digits: none, or a mark with a signed integer. -/
def exponent? : List Char → Option Int
  | [] => some 0
  | mark :: rest =>
    if mark ≠ 'e' ∧ mark ≠ 'E' then none
    else match rest with
      | '-' :: digits => (digits? digits).map fun n => -(n : Int)
      | '+' :: digits => (digits? digits).map fun n => (n : Int)
      | digits => (digits? digits).map fun n => (n : Int)

/-- A number without its sign: digits with an optional point and exponent, or the name of a value
that is not finite, in any case. -/
def magnitude? (cs : List Char) : Option Number :=
  let name := cs.map Char.toLower
  if name = ['i', 'n', 'f'] ∨ name = "infinity".toList then some (.infinite false)
  else if name = ['n', 'a', 'n'] then some .nan
  else
    let whole := cs.takeWhile Char.isDigit
    let (fraction, rest) := match cs.drop whole.length with
      | '.' :: after => (after.takeWhile Char.isDigit, after.dropWhile Char.isDigit)
      | rest => ([], rest)
    if whole.isEmpty && fraction.isEmpty then none
    else (exponent? rest).map fun e =>
      ofScientific (digitsValue (whole ++ fraction)) (e - fraction.length)

/-- The number that a text writes, with an optional sign and exponent. -/
def ofText? (source : String) : Option Number :=
  match source.toList with
  | '-' :: rest => (magnitude? rest).map neg
  | '+' :: rest => magnitude? rest
  | cs => magnitude? cs

end Resin.Number
