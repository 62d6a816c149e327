/-!
# Literals of a script

Texts of a program become string literals of a script, or pieces of its template literals.
-/

namespace Resin.Literal

/-- How a character stands in a string literal: quotes, backslashes and control characters are
escaped. -/
def escapeChar (c : Char) : List Char :=
  if c = '\x22' then ['\\', '\x22']
  else if c = '\\' then ['\\', '\\']
  else if c = '\n' then ['\\', 'n']
  else if c = '\r' then ['\\', 'r']
  else if c = '\t' then ['\\', 't']
  else if c.toNat < 0x20 then
    ['\\', 'u', '0', '0', Nat.digitChar (c.toNat / 16), Nat.digitChar (c.toNat % 16)]
  else [c]

/-- The characters of a string literal. -/
def quotedChars (cs : List Char) : List Char :=
  '\x22' :: cs.flatMap escapeChar ++ ['\x22']

/-- A text as a string literal. -/
def quoted (text : String) : String :=
  String.ofList (quotedChars text.toList)

/-- How characters stand in a template literal: backslashes, backticks and what would open a
substitution are escaped. -/
def templateChars : List Char → List Char
  | [] => []
  | '$' :: '{' :: cs => '\\' :: '$' :: '{' :: templateChars cs
  | c :: cs =>
    if c = '\\' ∨ c = '\x60' then '\\' :: c :: templateChars cs else c :: templateChars cs

/-- A text as a piece of a template literal. -/
def template (text : String) : String :=
  String.ofList (templateChars text.toList)

end Resin.Literal
