/-!
# Paths

Paths are texts with slashes between their parts. Empty parts and single dots name nothing.
-/

namespace Resin.Path

/-- The parts of a path, with the empty ones and the dots. -/
def parts : List Char → List (List Char)
  | [] => [[]]
  | c :: cs =>
    if c = '/' then [] :: parts cs
    else match parts cs with
      | [] => [[c]]
      | part :: rest => (c :: part) :: rest

/-- Whether a part of a path names nothing. -/
def isIdle (part : List Char) : Bool :=
  part == [] || part == ['.']

/-- The name of the file that a path leads to, if it does not end by going up. -/
def fileName? (path : String) : Option (List Char) :=
  ((parts path.toList).filter (!isIdle ·)).getLast?.filter (· ≠ ['.', '.'])

/-- What follows the last dot of a file name, unless that dot is its first character. -/
def extension? (path : String) : Option String :=
  match fileName? path with
  | none => none
  | some name =>
    let after := name.reverse.takeWhile (· ≠ '.')
    -- the characters before the last dot, if there is a dot
    match name.reverse.drop after.length with
    | [] => none
    | _ :: before => if before.isEmpty then none else some (String.ofList after.reverse)

end Resin.Path
