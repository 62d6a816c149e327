import Resin.Parse.Stmt
import Resin.Script.Expr

/-!
# Texts with regions

A region is a stretch of a text between square brackets; brackets in it are balanced. It is an
expression of its own, compiled apart from the program around it, and its errors are moved to the
place of the region. A text with regions becomes a template literal.
-/

namespace Resin

open Text

/-- A stretch of a text: plain characters, or a region with the offset of its first character
that is not blank. -/
inductive Segment where
  | text (content : String)
  | region (source : String) (offset : Nat)
deriving DecidableEq, Repr, Inhabited

namespace Segment

/-- The text before and after the bracket that closes `depth` open brackets. -/
def closing? (depth : Nat) : List Char → Option (List Char × List Char)
  | [] => none
  | c :: cs =>
    let depth := if c = '[' then depth + 1 else if c = ']' then depth - 1 else depth
    if depth = 0 then some ([], cs)
    else (closing? depth cs).map fun (inner, after) => (c :: inner, after)

/-- Plain characters as a segment, if there are any. -/
def plain (cs : List Char) : List Segment :=
  if cs.isEmpty then [] else [.text (String.ofList cs)]

/-- The region between two brackets, without its outer blanks. -/
def ofInner (inner : List Char) (offset : Nat) : Segment :=
  .region (String.ofList (trim inner)) (offset + (byteLength inner - byteLength (trimStart inner)))

/-- The segments of a text that starts at `offset` and has fewer than `n` regions. -/
def splitUpTo : Nat → Nat → List Char → Except Error (List Segment)
  | 0, _, _ => .ok []
  | n + 1, offset, cs =>
    let literal := cs.takeWhile (· ≠ '[')
    let bracket := offset + byteLength literal
    match cs.drop literal.length with
    | [] => .ok (plain literal)
    | _ :: rest =>
      match closing? 1 rest with
      | none => .error ⟨.unmatchedBracket, ⟨bracket, bracket + 1⟩, none⟩
      | some (inner, after) => do
        let segments ← splitUpTo n (bracket + byteLength inner + 2) after
        pure (plain literal ++ ofInner inner (bracket + 1) :: segments)

/-- The segments of a text that starts at `offset`. -/
def split (text : String) (offset : Nat) : Except Error (List Segment) :=
  let cs := text.toList
  splitUpTo (cs.length + 1) offset cs

/-! ## Calls outside regions -/

/-- The characters that make a longer word of one they touch. -/
def joinsWord (c : Option Char) : Bool :=
  match c with
  | some c => c.isAlphanum || c == '_'
  | none => false

/-- The offset of the first word `call` outside all brackets, if there is one. -/
def bareCall? (depth : Nat) (previous : Option Char) (offset : Nat) : List Char → Option Nat
  | [] => none
  | c :: cs =>
    if c = '[' then bareCall? (depth + 1) (some c) (offset + 1) cs
    else if c = ']' then bareCall? (depth - 1) (some c) (offset + 1) cs
    else if depth = 0 ∧ ['c', 'a', 'l', 'l'].isPrefixOf (c :: cs) ∧ ¬ joinsWord previous ∧
        ¬ joinsWord cs[3]? then some offset
    else bareCall? depth (some c) (offset + c.utf8Size) cs

/-- Refuses a text that calls a function outside its regions. -/
def refuseBareCalls (text : String) (offset : Nat) : Except Error Unit :=
  match bareCall? 0 none offset text.toList with
  | some at_ => .error ⟨.bareCall, ⟨at_, at_ + 4⟩, none⟩
  | none => .ok ()

end Segment

/-! ## Scripts of regions -/

/-- The script of a source that is one expression. -/
def expressionScript (source : String) : Except Error Fragment := do
  let e ← parseExpression source
  e.script

/-- The script of a region that starts at `offset`. -/
def regionScript (source : String) (offset : Nat) : Except Error Fragment :=
  if source.isEmpty then .error ⟨.emptyRegion, ⟨offset - 1, offset + 1⟩, none⟩
  else (expressionScript source).mapError (Error.shift offset)

/-- The script of a segment, as a piece of a template literal. -/
def Segment.script : Segment → Except Error Fragment
  | .text content => .ok (Literal.template content)
  | .region source offset => do
    let code ← regionScript source offset
    pure ("$\x7b" ++ code ++ "\x7d")

/-- The template literal for a text with regions that starts at `offset`. -/
def templateScript (text : String) (offset : Nat) : Except Error Fragment := do
  let segments ← Segment.split text offset
  let pieces ← segments.mapM Segment.script
  pure ("`" ++ Fragment.join "" pieces ++ "`")

end Resin
