import Z80.CommandLine

/-!
The executable: reads the file that the arguments name and writes what the command
line answers. The whole log is shown when the variable Z80_LOG is set to info.
-/

namespace Z80

def readFault : IO.Error → CommandLine.ReadFault
  | .noFileOrDirectory _ _ _ => .notFound
  | .permissionDenied _ _ _ => .denied
  | .inappropriateType (some _) _ _ => .notDirectory
  | .inappropriateType none _ _ => .isDirectory
  | .invalidArgument _ _ _ => .nameTooLong
  | e => .other e.toString

def readFile (path : String) : IO (Except CommandLine.ReadFault (Array Byte)) := do
  try
    let bytes ← IO.FS.readBinFile path
    return .ok bytes.data
  catch e => return .error (readFault e)

def outcomeOf (args : List String) : IO CommandLine.Outcome := do
  match CommandLine.parse args with
  | .error f => return .failed [] f
  | .ok request => return request.execute (← readFile request.path)

end Z80

def main (args : List String) : IO UInt32 := do
  let verbose := (← IO.getEnv "Z80_LOG") == some "info"
  let outcome ← Z80.outcomeOf args
  let stdout ← IO.getStdout
  stdout.write ⟨outcome.stdout⟩
  stdout.flush
  IO.eprint (outcome.stderr verbose)
  return outcome.code
