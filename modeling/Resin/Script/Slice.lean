import Resin.Text.Blank
import Resin.Text.Cut
import Resin.Text.Integer
import Resin.Token.Keyword

/-!
# Slices

A slice takes a part of an array or a string: a range of places, every n-th place, or all of them
backwards. Programs write it in a text such as `2:5`, `::2` or `::-1`.
-/

namespace Resin

/-- A part of an array or a string. -/
inductive Slice where
  | range (first last : Option Int)
  | stride (step : Nat)
  | reverse
deriving DecidableEq, Repr, Inhabited

namespace Slice

open Text

/-- A bound of a range: nothing, or a signed integer. -/
def bound? (cs : List Char) : Option (Option Int) :=
  let trimmed := trim cs
  if trimmed.isEmpty then some none else (signed64? trimmed).map some

/-- The slice with the step that a text gives. -/
def ofStep? (cs : List Char) : Option Slice :=
  match signed64? (trim cs) with
  | none => none
  | some step =>
    if step = -1 then some .reverse
    else if 0 < step then some (.stride step.toNat)
    else none

/-- The slice that characters write: after two colons a step, else two bounds around a colon. -/
def ofChars? (cs : List Char) : Option Slice :=
  match trim cs with
  | ':' :: ':' :: step => ofStep? step
  | trimmed =>
    match cut? [':'] trimmed with
    | none => none
    | some (first, last) =>
      match bound? first, bound? last with
      | some a, some b => some (.range a b)
      | _, _ => none

/-- The slice that a text writes. -/
def ofText? (text : String) : Option Slice :=
  ofChars? text.toList

/-- The script for a slice of a variable. A stride and a reversal work on the elements, so those
of a string are joined again. -/
def script (type : TypeName) (target : String) : Slice → String
  | .range first none => target ++ ".slice(" ++ toString (first.getD 0) ++ ")"
  | .range first (some last) =>
    target ++ ".slice(" ++ toString (first.getD 0) ++ ", " ++ toString last ++ ")"
  | .stride step =>
    "[..." ++ target ++ "].filter((_, i) => i % " ++ toString step ++ " === 0)" ++ joined
  | .reverse => "[..." ++ target ++ "].reverse()" ++ joined
where
  joined : String := if type = .string then ".join(\"\")" else ""

end Slice

end Resin
