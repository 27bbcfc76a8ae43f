import LogVerdict.Process
/-!
# Main — the command

Looks up the environment and the log, makes the run (`Check.run`) in the setting of the process, whose spinner stands
still (`Process.setting`), and writes what it says.
-/
namespace LogVerdict

def errorName : UInt32 → String
  | 1 => "EPERM"
  | 2 => "ENOENT"
  | 5 => "EIO"
  | 12 => "ENOMEM"
  | 13 => "EACCES"
  | 20 => "ENOTDIR"
  | 21 => "EISDIR"
  | 22 => "EINVAL"
  | 23 => "ENFILE"
  | 24 => "EMFILE"
  | 36 => "ENAMETOOLONG"
  | 40 => "ELOOP"
  | _ => "UNKNOWN"

def failureCode : IO.Error → String
  | .noFileOrDirectory _ n _ | .inappropriateType _ n _ | .invalidArgument _ n _ | .permissionDenied _ n _
  | .resourceExhausted _ n _ | .noSuchThing _ n _ | .interrupted _ n _ | .otherError n _ | .hardwareFault n _
  | .illegalOperation n _ | .resourceBusy n _ | .unsupportedOperation n _ => errorName n
  | _ => "UNKNOWN"

def readLog (path : String) : IO Reading := do
  if '\x00' ∈ path.toList then return .error "ERR_INVALID_ARG_VALUE"
  try
    let bytes ← (← IO.FS.Handle.mk path .read).readBinToEnd
    return .ok bytes.toList
  catch e => return .error (failureCode e)

def environment : IO Environment := do
  let values ← Environment.names.mapM fun name => do
    let value ← IO.getEnv name
    return value.map fun v => (name, v)
  return .ofList (values.filterMap id)

def Write.send (w : Write) : IO Unit := do
  let stream ← match w.channel with
    | .out => IO.getStdout
    | .err => IO.getStderr
  stream.putStr w.text
  stream.flush

end LogVerdict

open LogVerdict in
def main (argv : List String) : IO UInt32 := do
  let env ← environment
  let process : Process := ⟨env, argv, ← (← IO.getStdout).isTty, ← (← IO.getStderr).isTty⟩
  let reading ← match Arguments.Invocation.read argv with
    | .check path _ => readLog path
    | _ => pure (.ok [])
  let transcript := Check.run process.setting argv fun _ => reading
  transcript.writes.forM Write.send
  return transcript.exitCode.toUInt32
