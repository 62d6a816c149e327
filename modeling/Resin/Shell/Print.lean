import Resin.Number.Decimal
import Resin.Shell.Arithmetic

/-!
# Printing commands

What `echo` and `printf` write. Text is held byte by byte, since an escape can stand for any byte.
-/

namespace Resin.Shell

/-- What a command writes, whether anything may follow it, what is wrong with its arguments, and
whether it has to give up because of that. -/
structure Written where
  text : List Char
  goesOn : Bool
  complaints : List String
  gaveUp : Bool
deriving DecidableEq, Repr, Inhabited

namespace Written

/-- Some text, with nothing wrong. -/
def plain (text : List Char) : Written := ⟨text, true, [], false⟩

/-- Nothing, and nothing may follow. -/
def last : Written := ⟨[], false, [], false⟩

/-- The status of a command that writes this. -/
def status (written : Written) : Nat :=
  if written.gaveUp then 2 else if written.complaints.isEmpty then 0 else 1

/-- Two texts one after the other, unless nothing may follow the first. -/
def append (a b : Written) : Written :=
  if a.goesOn then ⟨a.text ++ b.text, b.goesOn, a.complaints ++ b.complaints, b.gaveUp⟩ else a

end Written

/-! ## Escapes -/

/-- The byte that a text behind a backslash stands for, and the length of that text. -/
def escape? (text : List Char) : Option (Char × Nat) :=
  match text with
  | 'a' :: _ => some ('\x07', 1)
  | 'b' :: _ => some ('\x08', 1)
  | 'e' :: _ => some ('\x1b', 1)
  | 'f' :: _ => some ('\x0c', 1)
  | 'n' :: _ => some ('\n', 1)
  | 'r' :: _ => some ('\r', 1)
  | 't' :: _ => some ('\t', 1)
  | 'v' :: _ => some ('\x0b', 1)
  | '\\' :: _ => some ('\\', 1)
  | _ =>
    let digits := (text.take 3).takeWhile fun c => '0' ≤ c && c ≤ '7'
    let value := digits.foldl (fun n d => 8 * n + (d.toNat - '0'.toNat)) 0
    if digits.isEmpty then none else some (Char.ofNat (value % 256), digits.length)

/-- A text with its escapes carried out, of which the first `skip` characters are already dealt
with. An octal number may have a zero more in front, and `\c` ends all. -/
def unescape : Nat → List Char → Written
  | _, [] => .plain []
  | skip + 1, _ :: cs => unescape skip cs
  | 0, c :: cs =>
    if c ≠ '\\' then (Written.plain [c]).append (unescape 0 cs)
    else if cs.head? = some 'c' then .last
    else
      let extra := if cs.head? = some '0' ∧ cs.tail.head?.any (fun d => '0' ≤ d ∧ d ≤ '7') then 1
        else 0
      match escape? (cs.drop extra) with
      | some (byte, length) => (Written.plain [byte]).append (unescape (extra + length) cs)
      | none => (Written.plain [c]).append (unescape 0 cs)

/-- What `echo` writes. -/
def echoText (args : List String) : List Char :=
  let (newline, args) := match args with
    | "-n" :: rest => (false, rest)
    | _ => (true, args)
  ((unescape 0 (" ".intercalate args).toList).append (.plain (if newline then ['\n'] else []))).text

/-! ## Directives -/

/-- A directive of a format: its flags, width, precision and conversion. -/
structure Directive where
  flags : List Char
  width : Nat
  precision : Option Nat
  conversion : Char
deriving DecidableEq, Repr, Inhabited

/-- The number at the start of a text, and what is wrong with the text. A quote in front of a
character stands for the number of that character. -/
def leadingNumber (text : List Char) : Int × Option String :=
  match text.dropWhile Char.isWhitespace with
  | [] => (0, none)
  | '\x27' :: c :: _ | '\x22' :: c :: _ => (c.toNat, none)
  | first =>
    let sign := first.takeWhile fun c => c == '-' || c == '+'
    let digits := first.drop sign.length
    let lengths := (List.range (digits.length + 1)).reverse
    match if sign.length ≤ 1 then
        lengths.findSome? fun n => (constant? (digits.take n)).map fun value => (value, n)
      else none with
    | some (value, n) =>
      (if sign = ['-'] then -value else value,
        if n = digits.length then none
        else some (String.ofList text ++ ": not completely converted"))
    | none => (0, some (String.ofList text ++ ": expected numeric value"))

/-- A value brought to the nearest one between bounds, and what is wrong if it is not that. -/
def limited (text : List Char) (least greatest value : Int) : Int × Option String :=
  let complaint := some (String.ofList text ++ ": Numerical result out of range")
  if value < least then (least, complaint)
  else if greatest < value then (greatest, complaint)
  else (value, none)

namespace Directive

/-- A number that stands in a directive, or is taken from the arguments for a star. -/
def number (args : List String) (text : List Char) : Int × List String × List Char :=
  match text with
  | '*' :: rest => ((leadingNumber (args.headD "").toList).1, args.tail, rest)
  | _ =>
    let digits := text.takeWhile Char.isDigit
    (Text.digitsValue digits, args, text.drop digits.length)

/-- The directive behind a percent sign, its length, and the arguments that are left. A negative
width is a flag and a width. -/
def ofText? (args : List String) (text : List Char) : Option (Directive × Nat × List String) :=
  let flags := text.takeWhile ['#', '-', '+', ' ', '0'].contains
  let (width, args, rest) := number args (text.drop flags.length)
  let flags := if width < 0 then '-' :: flags else flags
  let (precision, args, rest) := match rest with
    | '.' :: rest =>
      let (precision, args, rest) := number args rest
      (if precision < 0 then none else some precision.toNat, args, rest)
    | _ => (none, args, rest)
  match rest with
  | [] => none
  | conversion :: left =>
    some (⟨flags, width.natAbs, precision, conversion⟩, text.length - left.length, args)

/-- Text filled up with blanks to the width, on the left unless a flag says otherwise. -/
def padded (d : Directive) (text : List Char) : List Char :=
  let blanks := List.replicate (d.width - text.length) ' '
  if d.flags.contains '-' then text ++ blanks else blanks ++ text

/-- A text for a directive, of which the precision is the greatest length. -/
def formatText (d : Directive) (text : List Char) : List Char :=
  d.padded (match d.precision with
    | some n => text.take n
    | none => text)

/-- A number, given its sign and its digits. Zeros between them may fill up the width if a flag
asks for that. -/
def formatNumber (d : Directive) (fills : Bool) (sign digits : List Char) : List Char :=
  let zeros := if fills ∧ d.flags.contains '0' ∧ ¬ d.flags.contains '-' then
      List.replicate (d.width - sign.length - digits.length) '0'
    else []
  d.padded (sign ++ zeros ++ digits)

/-- The sign of a number. -/
def sign (d : Directive) (negative : Bool) : List Char :=
  if negative then ['-'] else if d.flags.contains '+' then ['+']
  else if d.flags.contains ' ' then [' '] else []

/-! ## Integers -/

/-- The digits of a number in a base, at least as many as the precision asks for. -/
def digits (d : Directive) (base n : Nat) : List Char :=
  let digits := if n = 0 ∧ d.precision = some 0 then [] else Nat.toDigits base n
  List.replicate (d.precision.getD 1 - digits.length) '0' ++ digits

/-- An integer for a directive. -/
def formatInteger (d : Directive) (number : Int) : List Char :=
  let unsigned : Nat := (number % (Nat.pow 2 64 : Nat)).toNat
  let write (mark digits : List Char) : List Char :=
    d.formatNumber (d.precision = none) mark digits
  let marked := d.flags.contains '#' ∧ unsigned ≠ 0
  match d.conversion with
  | 'u' => write [] (d.digits 10 unsigned)
  | 'o' =>
    let digits := d.digits 8 unsigned
    write [] (if d.flags.contains '#' ∧ digits.head? ≠ some '0' then '0' :: digits else digits)
  | 'x' => write (if marked then ['0', 'x'] else []) (d.digits 16 unsigned)
  | 'X' =>
    write (if marked then ['0', 'X'] else []) ((d.digits 16 unsigned).map Char.toUpper)
  | _ => write (d.sign (number < 0)) (d.digits 10 number.natAbs)

/-! ## Fractions -/

/-- The digits of `num / den` with `places` of them behind the point. -/
def fixed (num den places : Nat) : List Char × List Char :=
  let digits := Nat.toDigits 10 (Number.roundDiv (num * Nat.pow 10 places) den)
  let digits := List.replicate (places + 1 - digits.length) '0' ++ digits
  (digits.take (digits.length - places), digits.drop (digits.length - places))

/-- The decimal exponent of `num / den`, which is positive. -/
def decimalExponent (num den : Nat) : Int :=
  if den ≤ num then ((Nat.toDigits 10 (num / den)).length : Int) - 1
  else
    let places := (List.range 400).findIdx fun k => den ≤ num * Nat.pow 10 k
    Int.neg places

/-- The first digits of `num / den`, one more than `places`, and its exponent. -/
def scientific (num den places : Nat) : Nat × Int :=
  if num = 0 then (0, 0)
  else
    let e := decimalExponent num den
    let shift := (places : Int) - e
    let digits :=
      Number.roundDiv (num * Nat.pow 10 shift.toNat) (den * Nat.pow 10 (-shift).toNat)
    if digits = Nat.pow 10 (places + 1) then (digits / 10, e + 1) else (digits, e)

/-- Digits with a point between them, which is left out if nothing stands behind it. -/
def pointed (d : Directive) (whole fraction : List Char) : List Char :=
  if fraction.isEmpty ∧ ¬ d.flags.contains '#' then whole else whole ++ '.' :: fraction

/-- Digits with an exponent. -/
def withExponent (d : Directive) (digits : List Char) (exponent : Int) : List Char :=
  let e := Nat.toDigits 10 exponent.natAbs
  d.pointed (digits.take 1) (digits.drop 1)
    ++ ['e', if exponent < 0 then '-' else '+']
    ++ (if e.length < 2 then '0' :: e else e)

/-- Digits without the zeros at their end, unless a flag keeps them. -/
def trimmed (d : Directive) (digits : List Char) : List Char :=
  if d.flags.contains '#' then digits else (digits.reverse.dropWhile (· == '0')).reverse

/-- The digits of a number that is not negative, with at least so many of them. -/
def someDigits (n length : Nat) : List Char :=
  let digits := Nat.toDigits 10 n
  List.replicate (length - digits.length) '0' ++ digits

/-- A fraction `num / den` for a directive, without a sign. -/
def fraction (d : Directive) (num den : Nat) : List Char :=
  let places := d.precision.getD 6
  match d.conversion.toLower with
  | 'f' =>
    let (whole, part) := fixed num den places
    d.pointed whole part
  | 'e' =>
    let (digits, e) := scientific num den places
    d.withExponent (someDigits digits (places + 1)) e
  | _ =>
    let count := if places = 0 then 1 else places
    let (digits, e) := scientific num den (count - 1)
    if e < -4 ∨ (count : Int) ≤ e then
      let digits := someDigits digits count
      d.withExponent (digits.take 1 ++ d.trimmed (digits.drop 1)) e
    else
      let (whole, part) := fixed num den ((count : Int) - 1 - e).toNat
      d.pointed whole (d.trimmed part)

/-- A number with a fraction for a directive. -/
def formatFraction (d : Directive) (number : Number) : List Char :=
  let text := match number with
    | .finite negative mantissa exponent =>
      d.formatNumber true (d.sign negative)
        (d.fraction (mantissa * Nat.pow 2 exponent.toNat) (Nat.pow 2 (-exponent).toNat))
    | .infinite negative => d.padded (d.sign negative ++ ['i', 'n', 'f'])
    | .nan => d.padded (d.sign false ++ ['n', 'a', 'n'])
  if d.conversion.isUpper then text.map Char.toUpper else text

/-- What an argument is written as. A number that is missing is zero. -/
def format (d : Directive) (arg : Option String) : Written :=
  let text := (arg.getD "").toList
  if d.conversion = 's' then .plain (d.formatText text)
  else if d.conversion = 'b' then
    let written := unescape 0 text
    { written with text := d.formatText written.text }
  else if d.conversion = 'c' then .plain (d.padded [text.headD '\x00'])
  else if ['d', 'i', 'o', 'u', 'x', 'X'].contains d.conversion then
    let (value, fault) := leadingNumber text
    let half : Int := (Nat.pow 2 63 : Nat)
    let isSigned := d.conversion = 'd' ∨ d.conversion = 'i'
    let (number, excess) := if isSigned then limited text (-half) (half - 1) value
      else limited text (-(2 * half - 1)) (2 * half - 1) value
    ⟨d.formatInteger number, true, (excess.or fault).toList, false⟩
  else if ['e', 'E', 'f', 'F', 'g', 'G'].contains d.conversion then
    match Number.ofText? (if text.isEmpty then "0" else String.ofList text) with
    | some number => .plain (d.formatFraction number)
    | none =>
      ⟨d.formatFraction (Number.ofDecimal 0 0), true,
        [String.ofList text ++ ": expected numeric value"], false⟩
  else .plain []

/-- Whether a directive has a meaning. -/
def isKnown (d : Directive) : Bool :=
  ['s', 'b', 'c', 'd', 'i', 'o', 'u', 'x', 'X', 'e', 'E', 'f', 'F', 'g', 'G'].contains d.conversion

end Directive

/-! ## Formats -/

/-- One pass over a format, of which the first `skip` characters are already dealt with, and the
arguments that are left. -/
def formatOnce (args : List String) : Nat → List Char → Written × List String
  | _, [] => (.plain [], args)
  | skip + 1, _ :: cs => formatOnce args skip cs
  | 0, c :: cs =>
    let before (written : Written) (rest : Written × List String) : Written × List String :=
      (written.append rest.1, rest.2)
    if c = '\\' then
      match escape? cs with
      | some (byte, length) => before (.plain [byte]) (formatOnce args length cs)
      | none => before (.plain [c]) (formatOnce args 0 cs)
    else if c = '%' then
      if cs.head? = some '%' then before (.plain ['%']) (formatOnce args 1 cs)
      else match Directive.ofText? args cs with
        | some (d, length, args) =>
          if d.isKnown then before (d.format args.head?) (formatOnce args.tail length cs)
          else
            let directive := String.ofList (c :: cs.take length)
            (⟨[], false, [directive ++ ": invalid directive"], true⟩, [])
        | none => 
          (⟨[], false, [String.ofList (c :: cs) ++ ": missing format character"], true⟩, [])
    else before (.plain [c]) (formatOnce args 0 cs)

/-- What a format gives that is gone over as long as it uses arguments, at most `n` times. -/
def formatAll (template : List Char) : Nat → List String → Written
  | 0, _ => .plain []
  | n + 1, args =>
    let (written, left) := formatOnce args 0 template
    if left.isEmpty || left.length == args.length then written
    else written.append (formatAll template n left)

/-- What `printf` writes for a format and arguments. -/
def printfText (template : String) (args : List String) : Written :=
  formatAll template.toList (args.length + 1) args

end Resin.Shell
