import Resin.CommandLine

/-!
# The program

Reads the file that the arguments name, and writes the answer.
-/

namespace Resin

/-- The reason why a file could not be read. The number of an error may be given with its sign
turned. -/
def systemError : IO.Error → SystemError
  | .permissionDenied .. => .permissionDenied
  | .inappropriateType _ number _ =>
    if number = 20 ∨ number = -20 then .notDirectory else .isDirectory
  | .invalidArgument .. => .nameTooLong
  | _ => .notFound

/-- The text of a file. -/
def readFileText (file : String) : IO (Except SystemError String) := do
  try
    let bytes ← IO.FS.readBinFile file
    match String.fromUTF8? bytes with
    | some text => return .ok text
    | none => return .error .notText
  catch e => return .error (systemError e)

end Resin

open Resin in
/-- Answers the arguments and ends with the exit code of the answer. -/
def main (args : List String) : IO UInt32 := do
  let request := Request.ofArgs args
  let contents ← match request.file? with
    | some file => readFileText file
    | none => pure (.ok "")
  let host ← IO.getEnv "EPOXY_HOST"
  let response := Response.ofRequest (.ofList []) host contents request
  IO.print response.output
  match response.complaint with
  | .text text => IO.eprint text
  | .diagnostic d =>
    IO.eprintln d.text
    match d.note with
    | some note => IO.eprintln ("note: " ++ note)
    | none => pure ()
  return response.code.toUInt32
