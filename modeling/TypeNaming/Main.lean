/-
# The program

The outermost layer: it reads the file that the arguments name, prints the
answer and sets the exit code.
-/
import TypeNaming.CommandLine.Run

open TypeNaming.CommandLine

/-- The number of a failure; some calls report it with the sign turned. -/
def failureNumber (code : UInt32) : UInt32 := min code (0 - code)

/-- Why a file could not be read. -/
def unreadable (failure : IO.Error) : Unreadable :=
  match failure with
  | .noFileOrDirectory _ _ _ => .missing
  | .permissionDenied _ _ _ => .denied
  | .inappropriateType _ code _ => if failureNumber code = 20 then .notDirectory else .directory
  | .invalidArgument _ code _ =>
    if failureNumber code = 36 then .nameTooLong else .other (toString failure)
  | _ => .other (toString failure)

/-- The bytes of a file, or of the standard input for `-`. -/
def readBytes (path : String) : IO ByteArray := do
  if path == "-" then
    let stdin ← IO.getStdin
    let mut bytes := ByteArray.empty
    let mut more := true
    while more do
      let piece ← stdin.read 65536
      bytes := bytes ++ piece
      more := !piece.isEmpty
    return bytes
  else
    IO.FS.readBinFile path

/-- The text of a file. -/
def readText (path : String) : IO (Except Unreadable String) := do
  match ← (readBytes path).toBaseIO with
  | .error failure => return .error (unreadable failure)
  | .ok bytes => return (String.fromUTF8? bytes).elim (.error .notText) .ok

def main (args : List String) : IO UInt32 := do
  let request := parse args
  let content ← match request.file? with
    | some path => readText path
    | none => pure (.ok "")
  let response := request.answer content
  (← IO.getStdout).putStr response.stdout
  (← IO.getStderr).putStr response.stderr
  return response.exitCode
