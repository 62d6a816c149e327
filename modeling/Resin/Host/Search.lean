import Resin.Host.Layout

/-!
# Looking up commands

A command is named by the path of its program, or by a name alone, which is looked up in the
search directories.
-/

namespace Resin.Command

/-- The command that the file at a path starts. Only programs may be executed. -/
def atPath (tree : FileTree) (path : String) : Except SystemError Command := do
  match ← tree.locate path with
  | .program command => .ok command
  | .file _ | .directory => .error .permissionDenied

/-- The command of a name in the first of some directories that has it. A file there that may not
be executed is passed over, and told of only if there is no other. -/
def search (tree : FileTree) (name : String) (denied : Bool) :
    List String → Except SystemError Command
  | [] => .error (if denied then .permissionDenied else .notFound)
  | directory :: others =>
    match atPath tree (directory ++ "/" ++ name) with
    | .error .notFound | .error .notDirectory => search tree name denied others
    | .error .permissionDenied => search tree name true others
    | result => result

/-- The command that a name starts, given the search directories. A name with a slash is the path of
a file. -/
def findIn (tree : FileTree) (directories : List String) (name : String) :
    Except SystemError Command :=
  if name.toList.contains '\x00' then .error .nulByte
  else if name.isEmpty then .error .notFound
  else if name.toList.contains '/' then atPath tree name
  else search tree name false directories

/-- The command that a name starts. -/
def find (tree : FileTree) (name : String) : Except SystemError Command :=
  findIn tree Layout.searchDirectories name

/-- Whether a name starts a command that tells its version. -/
def available (tree : FileTree) (name : String) : Bool :=
  match find tree name with
  | .ok command => command.hasVersion
  | .error _ => false

end Resin.Command
