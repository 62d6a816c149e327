import Resin.Host.Command
import Resin.Host.Path
import Resin.Text.Bytes

/-!
# Files and directories

A file tree holds what is known to stand on a system, and the working directory in it.
`FileTree.locate` follows a path as an operating system does, part by part, and gives the reason if
it leads nowhere.
-/

namespace Resin

/-- The reasons for which a file cannot be read or a command cannot be started or given its
input. -/
inductive SystemError where
  | notFound
  | permissionDenied
  | notDirectory
  | isDirectory
  | brokenPipe
  | nameTooLong
  | notText
  | nulByte
deriving DecidableEq, Repr, Inhabited

namespace SystemError

/-- What a system error is called. -/
def message : SystemError → String
  | .notFound => "No such file or directory"
  | .permissionDenied => "Permission denied"
  | .notDirectory => "Not a directory"
  | .isDirectory => "Is a directory"
  | .brokenPipe => "Broken pipe"
  | .nameTooLong => "File name too long"
  | .notText => "stream did not contain valid UTF-8"
  | .nulByte => "nul byte found in provided data"

/-- The number of a system error, if it has one. -/
def number? : SystemError → Option Nat
  | .notFound => some 2
  | .permissionDenied => some 13
  | .notDirectory => some 20
  | .isDirectory => some 21
  | .brokenPipe => some 32
  | .nameTooLong => some 36
  | .notText | .nulByte => none

/-- The text of a system error, with its number if it has one. -/
def text (e : SystemError) : String :=
  match e.number? with
  | some n => e.message ++ " (os error " ++ toString n ++ ")"
  | none => e.message

end SystemError

/-- The names on the way from the root of a file tree to a place in it. -/
abbrev Route := List (List Char)

/-- What stands at a place. -/
inductive FileEntry where
  | file (bytes : ByteArray)
  | program (command : Command)
  | directory
deriving Inhabited

/-- What stands at the places of a system, the links between directories, and the working
directory. A link leads to a place that is not a link itself. -/
structure FileTree where
  entries : List (Route × FileEntry)
  links : List (Route × Route)
  here : Route
deriving Inhabited

namespace FileTree

/-! ## Places -/

/-- What stands at a place. A directory need not be listed if something in it is. -/
def entry? (tree : FileTree) (place : Route) : Option FileEntry :=
  match tree.entries.find? fun (p, _) => p == place with
  | some (_, entry) => some entry
  | none =>
    if place.isEmpty || tree.entries.any (fun (p, _) => place.isPrefixOf p) then some .directory
    else none

/-- The tree with something put at a place. -/
def put (tree : FileTree) (place : Route) (entry : FileEntry) : FileTree :=
  { tree with entries := (place, entry) :: tree.entries.filter fun (p, _) => p != place }

/-- The names of what stands right in a directory. -/
def names (tree : FileTree) (place : Route) : List (List Char) :=
  let routes := tree.entries.map Prod.fst ++ tree.links.map Prod.fst
  let inside := routes.filterMap fun route =>
    if place.isPrefixOf route then route[place.length]? else none
  (inside.filter (· ≠ [])).eraseDups

/-- The place one part further on; above the root is the root again. -/
def step (tree : FileTree) (place : Route) (part : List Char) : Route :=
  if Path.isIdle part then place
  else if part = ['.', '.'] then place.dropLast
  else
    let next := place ++ [part]
    (tree.links.lookup next).getD next

/-! ## Paths -/

/-- The greatest number of bytes in a part of a path. -/
def partLimit : Nat := 255

/-- The greatest number of bytes in a path. -/
def pathLimit : Nat := 4095

/-- Follows the parts of a path; all but the last place must be directories. -/
def follow (tree : FileTree) (place : Route) : List (List Char) → Except SystemError Route
  | [] => .ok place
  | part :: rest =>
    match tree.entry? place with
    | none => .error .notFound
    | some (.file _) | some (.program _) => .error .notDirectory
    | some .directory =>
      if partLimit < Text.byteLength part then .error .nameTooLong
      else tree.follow (tree.step place part) rest

/-- The place that a path leads to, from the root if it begins with a slash and else from the
working directory. Nothing need stand there. The length of the whole path is checked before any
part of it. -/
def resolve (tree : FileTree) (path : String) : Except SystemError Route :=
  if path.isEmpty then .error .notFound
  else if pathLimit < Text.byteLength path.toList then .error .nameTooLong
  else
    let start := if path.toList.head? = some '/' then [] else tree.here
    tree.follow start (Path.parts path.toList)

/-- What a path leads to. -/
def locate (tree : FileTree) (path : String) : Except SystemError FileEntry := do
  match tree.entry? (← tree.resolve path) with
  | some entry => .ok entry
  | none => .error .notFound

/-- The bytes of the file at a path. What is in a program is not known. -/
def readBytes (tree : FileTree) (path : String) : Except SystemError ByteArray := do
  match ← tree.locate path with
  | .directory => .error .isDirectory
  | .program _ => .error .notText
  | .file bytes => .ok bytes

/-- The text of the file at a path. -/
def readText (tree : FileTree) (path : String) : Except SystemError String := do
  match String.fromUTF8? (← tree.readBytes path) with
  | some text => .ok text
  | none => .error .notText

end FileTree

end Resin
