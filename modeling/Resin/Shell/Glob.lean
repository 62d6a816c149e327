import Resin.Host.FileTree
import Resin.Shell.Pattern
import Resin.Text.Decode

/-!
# Patterns for files

A field in which there are patterns stands for the files that it matches, in order, or for itself if
there are none.
-/

namespace Resin.Shell

/-- The parts of a field between its slashes. -/
def fieldParts : List (Char × Bool) → List (List (Char × Bool))
  | [] => [[]]
  | c :: cs =>
    if c.1 = '/' then [] :: fieldParts cs
    else match fieldParts cs with
      | [] => [[c]]
      | part :: rest => (c :: part) :: rest

/-- The names in a directory in order, with the two that every directory has. -/
def sortedNames (tree : FileTree) (place : Route) : List String :=
  match tree.entry? place with
  | some .directory =>
    let names := (tree.names place).map fun name => String.ofList (Text.octets (String.ofList name))
    ("." :: ".." :: names).mergeSort fun a b => !(b < a)
  | _ => []

/-- Whether a pattern matches a name. A dot at the start of a name has to be given. -/
def matchesName (pattern : List Wildcard) (name : String) : Bool :=
  Wildcard.matchesAll pattern name.toList
    && (name.toList.head? != some '.' || pattern.head? == some (.char '.'))

/-- The ways to go on from a place by the parts of a field, each as the names on it. -/
def pathsFrom (tree : FileTree) (place : Route) : List (List (Char × Bool)) → List (List String)
  | [] => [[]]
  | part :: rest =>
    let pattern := Wildcard.ofText 0 part
    let names := if pattern.any Wildcard.isGeneral then
        (sortedNames tree place).filter (matchesName pattern)
      else [String.ofList (part.map Prod.fst)]
    names.flatMap fun name =>
      let next := tree.step place (Text.ofOctets name.toList).toList
      match tree.entry? next with
      | some .directory => (pathsFrom tree next rest).map (name :: ·)
      | some _ => if rest.isEmpty then [[name]] else []
      | none => []

/-- What a field stands for. -/
def glob (tree : FileTree) (field : List (Char × Bool)) : List String :=
  let text := String.ofList (field.map Prod.fst)
  if (Wildcard.ofText 0 field).any Wildcard.isGeneral then
    let start := if text.toList.head? = some '/' then [] else tree.here
    let paths := (pathsFrom tree start (fieldParts field)).map ("/".intercalate ·)
    if paths.isEmpty then [text] else paths
  else [text]

end Resin.Shell
