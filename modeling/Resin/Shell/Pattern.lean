import Resin.Text.Cut

/-!
# Patterns

A pattern is matched with a whole text. In it a star stands for any characters, a question mark
for one, and brackets for one of those that they hold.
-/

namespace Resin.Shell

/-- An element of a pattern. -/
inductive Wildcard where
  | char (c : Char)
  | any
  | many
  | oneOf (wanted : Bool) (ranges : List (Char × Char))
deriving DecidableEq, Repr, Inhabited

namespace Wildcard

/-! ## Reading patterns -/

/-- The ranges of characters that a name in brackets stands for. -/
def classRanges (name : String) : List (Char × Char) :=
  match name with
  | "alpha" => [('A', 'Z'), ('a', 'z')]
  | "digit" => [('0', '9')]
  | "alnum" => [('0', '9'), ('A', 'Z'), ('a', 'z')]
  | "upper" => [('A', 'Z')]
  | "lower" => [('a', 'z')]
  | "space" => [('\t', '\r'), (' ', ' ')]
  | "blank" => [('\t', '\t'), (' ', ' ')]
  | "punct" => [('!', '/'), (':', '@'), ('[', '\x60'), ('\x7b', '~')]
  | "xdigit" => [('0', '9'), ('A', 'F'), ('a', 'f')]
  | "cntrl" => [('\x00', '\x1f'), ('\x7f', '\x7f')]
  | "print" => [(' ', '~')]
  | "graph" => [('!', '~')]
  | _ => []

/-- The ranges up to the closing bracket, and the number of characters with it. A closing bracket in
the first place is a character like others. -/
def ranges? (first : Bool) : Nat → List Char → Option (List (Char × Char) × Nat)
  | 0, _ => none
  | n + 1, text =>
    let before (ranges : List (Char × Char)) (length : Nat) :
        Option (List (Char × Char) × Nat) :=
      (ranges? false n (text.drop length)).map fun (others, more) => (ranges ++ others, length + more)
    match text with
    | [] => none
    | '[' :: ':' :: rest =>
      match Text.cut? [':', ']'] rest with
      | some (name, _) => before (classRanges (String.ofList name)) (name.length + 4)
      | none => before [('[', '[')] 1
    | a :: '-' :: b :: _ => if a = ']' ∧ !first then some ([], 1)
      else if b = ']' then before [(a, a)] 1 else before [(a, b)] 3
    | c :: _ => if c = ']' ∧ !first then some ([], 1) else before [(c, c)] 1

/-- What stands in brackets behind a text's first one, and its length with the closing one. -/
def brackets? (text : List Char) : Option (Wildcard × Nat) :=
  let negated := text.head? = some '!' ∨ text.head? = some '^'
  let inside := if negated then text.tail else text
  (ranges? true (inside.length + 1) inside).map fun (ranges, length) =>
    (.oneOf (!negated) ranges, length + (if negated then 1 else 0))

/-- The elements of a pattern of which the first `skip` characters are already dealt with. Every
character is given with whether it is quoted, and then stands for itself. -/
def ofText : Nat → List (Char × Bool) → List Wildcard
  | _, [] => []
  | skip + 1, _ :: cs => ofText skip cs
  | 0, (c, quoted) :: cs =>
    if quoted then .char c :: ofText 0 cs
    else if c = '*' then .many :: ofText 0 cs
    else if c = '?' then .any :: ofText 0 cs
    else if c = '[' then
      match brackets? (cs.map Prod.fst) with
      | some (wildcard, length) => wildcard :: ofText length cs
      | none => .char c :: ofText 0 cs
    else .char c :: ofText 0 cs

/-- Whether an element stands for anything but itself. -/
def isGeneral : Wildcard → Bool
  | .char _ => false
  | .any | .many | .oneOf _ _ => true

/-! ## Matching -/

/-- Whether an element other than a star matches a character. -/
def matchesChar (c : Char) : Wildcard → Bool
  | .char d => c == d
  | .any | .many => true
  | .oneOf wanted ranges => ranges.any (fun (a, b) => a ≤ c && c ≤ b) == wanted

/-- Whether a pattern matches a whole text. -/
def matchesAll : List Wildcard → List Char → Bool
  | [], text => text.isEmpty
  | .many :: pattern, text =>
    (List.range (text.length + 1)).any fun n => matchesAll pattern (text.drop n)
  | _ :: _, [] => false
  | wildcard :: pattern, c :: text => wildcard.matchesChar c && matchesAll pattern text

/-- The text without the part at its start that a pattern matches, the longest or the shortest. -/
def withoutStart (longest : Bool) (pattern : List Wildcard) (text : List Char) : List Char :=
  let lengths := List.range (text.length + 1)
  let fits := (if longest then lengths.reverse else lengths).find? fun n =>
    matchesAll pattern (text.take n)
  text.drop (fits.getD 0)

/-- The text without the part at its end that a pattern matches, the longest or the shortest. -/
def withoutEnd (longest : Bool) (pattern : List Wildcard) (text : List Char) : List Char :=
  let lengths := List.range (text.length + 1)
  let fits := (if longest then lengths else lengths.reverse).find? fun n =>
    matchesAll pattern (text.drop n)
  text.take (fits.getD text.length)

end Wildcard

end Resin.Shell
