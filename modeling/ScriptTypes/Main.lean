import ScriptTypes.CommandLine.Run
import ScriptTypes.Json.Reader

/-! Reads syntax trees written as JSON. -/

namespace ScriptTypes.CommandLine

def ReadError.ofIOError : IO.Error → ReadError
  | .noFileOrDirectory _ _ _ => .missing
  | .permissionDenied _ _ _ => .denied
  | .invalidArgument _ code _ => if code = 36 then .nameTooLong else .missing
  | .inappropriateType _ code _ => if code = 20 then .notDirectory else .directory
  | _ => .directory

def loadFile (path : String) : IO Source := do
  try
    let bytes ← IO.FS.readBinFile path
    match Text.Utf8.decode (bytes.toList.map UInt8.toNat) with
    | .error refusal => return .unreadable (.encoding refusal)
    | .ok text =>
      match Json.parse? text with
      | some tree => return .tree tree
      | none => return .unparsable "not a JSON syntax tree"
  catch e => return .unreadable (.ofIOError e)

/-- Loads the one file that the arguments name, then prints the outcome. -/
def execute (args : List String) : IO UInt32 := do
  let path := match Invocation.ofArguments args with
    | .ok i => i.task.map Task.path
    | .error _ => none
  let source ← match path with
    | some path => loadFile path
    | none => pure (.unreadable .missing)
  let started ← IO.monoMsNow
  match run (fun _ => source) args with
  | .ok outcome =>
    (← IO.getStderr).putStr (outcome.errors (toString started))
    (← IO.getStdout).putStr outcome.out
    return UInt32.ofNat outcome.exit
  | .error fault =>
    let reason := match fault with
      | .blankSwitch => "a switch has no value"
      | .nullInPath => "a path has no null characters"
      | _ => "malformed syntax tree"
    (← IO.getStderr).putStrLn ("Error: " ++ reason)
    return 1

end ScriptTypes.CommandLine

def main (args : List String) : IO UInt32 :=
  ScriptTypes.CommandLine.execute args
