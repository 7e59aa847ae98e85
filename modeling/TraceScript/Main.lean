import TraceScript.CommandLine.Run

/-!
The command on the real console.
-/
namespace TraceScript.CommandLine

/-- Errors of the system keep their number and its text. -/
def fileError : IO.Error → FileError
  | .noFileOrDirectory .. => .notFound
  | .alreadyExists _ code reason | .invalidArgument _ code reason
  | .permissionDenied _ code reason | .resourceExhausted _ code reason
  | .inappropriateType _ code reason | .noSuchThing _ code reason
  | .interrupted _ code reason | .otherError code reason | .resourceBusy code reason
  | .resourceVanished code reason | .unsupportedOperation code reason
  | .hardwareFault code reason | .unsatisfiedConstraints code reason
  | .illegalOperation code reason | .protocolError code reason | .timeExpired code reason =>
    .other s!"{reason} (os error {code})"
  | e => .other (toString e)

def attempt {α : Type} (action : IO α) : IO (Except FileError α) := do
  try return .ok (← action)
  catch e => return .error (fileError e)

/-- Reads the bytes first, so that what is no text is an error of the file. -/
def readAll (action : IO ByteArray) : IO (Except FileError String) := do
  return (← attempt action).bind fun bytes => readText bytes.toList

def terminal : Console IO where
  readStdin := readAll do (← IO.getStdin).readBinToEnd
  readFile path := readAll do (← IO.FS.Handle.mk path .read).readBinToEnd
  writeFile path bytes := do
    match ← attempt (IO.FS.Handle.mk path .write) with
    | .error e => return .error (.opening e)
    | .ok file =>
      let written ← attempt do
        file.write ⟨bytes.toArray⟩
        file.flush
      return written.mapError .writing
  print text := attempt (IO.print text)
  complain := IO.eprint

end TraceScript.CommandLine

def main (args : List String) : IO UInt32 :=
  TraceScript.CommandLine.run TraceScript.CommandLine.terminal args
