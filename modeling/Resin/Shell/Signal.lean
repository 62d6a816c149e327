import Resin.Text.Integer

/-!
# Signals

The signals by their numbers and names. Number zero stands for the end of a shell.
-/

namespace Resin.Shell.Signal

/-- The names of the signals from number one on. -/
def names : List String :=
  ["HUP", "INT", "QUIT", "ILL", "TRAP", "ABRT", "BUS", "FPE", "KILL", "USR1", "SEGV", "USR2",
    "PIPE", "ALRM", "TERM", "16", "CHLD", "CONT", "STOP", "TSTP", "TTIN", "TTOU", "URG", "XCPU",
    "XFSZ", "VTALRM", "PROF", "WINCH", "IO", "PWR", "SYS", "32", "33", "RTMIN"]
    ++ (List.range 15).map (fun n => "RTMIN+" ++ toString (n + 1))
    ++ (List.range 14).map (fun n => "RTMAX-" ++ toString (14 - n))
    ++ ["RTMAX"]

/-- The number of a signal that is given by a name or a number. -/
def ofText? (text : String) : Option Nat :=
  match Text.digits? text.toList with
  | some n => if n ≤ names.length then some n else none
  | none =>
    if text = "EXIT" then some 0
    else (names.findIdx? (· == text)).map (· + 1)

/-- The name of a signal. -/
def name (signal : Nat) : String :=
  if signal = 0 then "EXIT" else names.getD (signal - 1) ""

/-- Whether a process goes on when it gets a signal that it does not expect. -/
def isHarmless (signal : Nat) : Bool :=
  ["CHLD", "CONT", "STOP", "TSTP", "TTIN", "TTOU", "URG", "WINCH"].contains (name signal)

/-- Whether a process can decide what a signal does. -/
def canBeCaught (signal : Nat) : Bool :=
  name signal ≠ "KILL" && name signal ≠ "STOP"

/-- What a shell says of a command that was ended by a signal. -/
def obituary (signal : Nat) : String :=
  match name signal with
  | "HUP" => "Hangup"
  | "QUIT" => "Quit"
  | "ILL" => "Illegal instruction"
  | "TRAP" => "Trace/breakpoint trap"
  | "ABRT" => "Aborted"
  | "BUS" => "Bus error"
  | "FPE" => "Floating point exception"
  | "KILL" => "Killed"
  | "USR1" => "User defined signal 1"
  | "SEGV" => "Segmentation fault"
  | "USR2" => "User defined signal 2"
  | "ALRM" => "Alarm clock"
  | "TERM" => "Terminated"
  | _ => ""

end Resin.Shell.Signal
