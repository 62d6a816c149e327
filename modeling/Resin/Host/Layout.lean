import Resin.Host.FileTree

/-!
# The standard layout

Where a common system keeps its directories, its devices and the known commands, and the file tree
of a system whose working directory holds some files.
-/

namespace Resin.Layout

/-- The place of a full path. -/
def place (path : String) : Route :=
  (Path.parts path.toList).filter (!Path.isIdle ·)

/-- The directories of a system. Those above a listed one are there with it. -/
def directories : List String :=
  ["/boot", "/dev/mqueue", "/dev/pts", "/dev/shm", "/etc/default", "/etc/init.d", "/etc/opt",
    "/etc/profile.d", "/etc/skel", "/home", "/media", "/mnt", "/opt", "/proc/self", "/proc/sys",
    "/root", "/run/lock", "/srv", "/sys", "/tmp", "/usr/bin", "/usr/games", "/usr/include",
    "/usr/lib", "/usr/lib64", "/usr/libexec", "/usr/local/bin", "/usr/local/etc",
    "/usr/local/include", "/usr/local/lib", "/usr/local/sbin", "/usr/local/share",
    "/usr/local/src", "/usr/sbin", "/usr/share/doc", "/usr/share/man", "/usr/src", "/var/backups",
    "/var/cache", "/var/lib", "/var/local", "/var/log", "/var/mail", "/var/opt", "/var/spool",
    "/var/tmp"]

/-- The directories that are only another name for one. -/
def links : List (String × String) :=
  [("/bin", "/usr/bin"), ("/lib", "/usr/lib"), ("/lib64", "/usr/lib64"), ("/sbin", "/usr/sbin"),
    ("/var/lock", "/run/lock"), ("/var/run", "/run")]

/-- Files of a system that are no programs. They are known to be there, and count as empty. -/
def files : List String :=
  ["/dev/full", "/dev/null", "/dev/random", "/dev/stderr", "/dev/stdin", "/dev/stdout", "/dev/tty",
    "/dev/urandom", "/dev/zero", "/etc/fstab", "/etc/group", "/etc/hostname", "/etc/hosts",
    "/etc/os-release", "/etc/passwd", "/etc/profile", "/etc/resolv.conf", "/etc/shadow"]

/-- Whether a place is that of a device. -/
def isDevice (place : Route) : Bool :=
  place.head? = some "dev".toList

/-- The directory of the known commands. -/
def commandDirectory : String := "/usr/bin"

/-- The directories in which a command is looked up by its name alone, in order. -/
def searchDirectories : List String :=
  ["/usr/local/sbin", "/usr/local/bin", "/usr/sbin", "/usr/bin", "/sbin", "/bin"]

/-- The variables that every process is given. -/
def environment : List (String × String) :=
  [("HOME", "/root"), ("PATH", ":".intercalate searchDirectories)]

/-- The working directory, under the one for temporary files. Its name is not known and stands as
the empty one, which no path can spell. -/
def workingDirectory : Route := place "/tmp" ++ [[]]

/-- What stands on a system before any file is put there. -/
def entries : List (Route × FileEntry) :=
  (Command.named.map fun (name, command) =>
      (place commandDirectory ++ [name.toList], .program command))
    ++ (files.map fun path => (place path, .file .empty))
    ++ (directories.map fun path => (place path, .directory))
    ++ [(workingDirectory, .directory)]

end Resin.Layout

namespace Resin.FileTree

/-- The tree of a system whose working directory holds some files, given by their paths. -/
def ofList (files : List (String × FileEntry)) : FileTree :=
  let here := Layout.workingDirectory
  { entries := (files.map fun (path, entry) => (here ++ Layout.place path, entry)) ++ Layout.entries
    links := Layout.links.map fun (link, target) => (Layout.place link, Layout.place target)
    here }

end Resin.FileTree
