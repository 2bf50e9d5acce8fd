import ScriptTypes.CommandLine.Invocation
import ScriptTypes.Inference.Run
import ScriptTypes.Listing
import ScriptTypes.Outline
import ScriptTypes.Text.Utf8

/-! A command reads a file, infers its types and prints. Given how files are read, its outcome is a
function of its arguments. -/

namespace ScriptTypes.CommandLine

/-- Why a file cannot be read. -/
inductive ReadError where
  | missing
  | directory
  | notDirectory
  | denied
  | nameTooLong
  | encoding (refusal : Text.Utf8.Refusal)

def ReadError.text (path : String) : ReadError → String
  | missing => "[Errno 2] No such file or directory: " ++ Text.quoted path
  | directory => "[Errno 21] Is a directory: " ++ Text.quoted path
  | notDirectory => "[Errno 20] Not a directory: " ++ Text.quoted path
  | denied => "[Errno 13] Permission denied: " ++ Text.quoted path
  | nameTooLong => "[Errno 36] File name too long: " ++ Text.quoted path
  | encoding refusal => refusal.message

/-- What comes of reading and parsing a file. -/
inductive Source where
  | unreadable (reason : ReadError)
  | unparsable (message : String)
  | tree (tree : Json)

structure Outcome where
  exit : Nat
  out : String := ""
  events : List Event := []
  err : String := ""

/-- All that goes to the error channel, each event under the given time. -/
def Outcome.errors (stamp : String) (o : Outcome) : String :=
  String.join (o.events.map (Event.line stamp)) ++ o.err

def Stop.outcome : Stop → Outcome
  | .shown text => { exit := 0, out := text }
  | .refused usage program message =>
    { exit := 2, err := usage ++ program ++ ": error: " ++ message ++ "\n" }

/-- The events of a run that the level lets through. -/
def shownEvents (level : Level) (st : State) : List Event :=
  st.events.toList.filter fun e => level.severity ≤ e.level.severity

/-- A failure ends a command with a report; a fault has none. -/
def failed (label : String) (events : List Event) : Failure → Except Fault Outcome
  | .report r => .ok { exit := 1, events, err := label ++ ": " ++ r.text ++ "\n" }
  | .fault f => .error f

def print (command : Command) (p : Program) : InferM String := do
  match command with
  | .outline => return unlines p.root.outlineLines
  | .identifiers recursive json =>
    let listing ← p.listing recursive p.root
    if json then return (Json.object (Entry.fieldsOf listing)).indented ++ "\n"
    else return unlines (Entry.linesOf 0 listing)

def runTree (level : Level) (command : Command) (settings : Settings) (tree : Json) :
    Except Fault Outcome :=
  match Program.ofJson settings tree with
  | .error failure => failed "Inference error" [] failure
  | .ok p =>
    match p.infer.run.run p.start with
    | (.error failure, st) => failed "Inference error" (shownEvents level st) failure
    | (.ok _, st) =>
      let events := shownEvents level st
      match ((print command p).run.run st).1 with
      | .error failure => failed "Error" events failure
      | .ok out => .ok { exit := 0, out, events }

def runTask (load : String → Source) (level : Level) (maxDepth : Setting Int) (t : Task) :
    Except Fault Outcome := do
  if t.path.contains '\x00' then throw .nullInPath
  match load t.path with
  | .unreadable reason =>
    let message := t.path ++ ": " ++ reason.text t.path
    return { exit := 2, err := "Error: cannot read " ++ message ++ "\n" }
  | .unparsable message =>
    return { exit := 2, err := "Syntax error: " ++ t.path ++ ": " ++ message ++ "\n" }
  | .tree tree =>
    let maxDepth ← maxDepth.value?
    match Settings.standard.change { maxDepth } with
    | .error refusal => return { exit := 2, err := "Error: " ++ refusal.message ++ "\n" }
    | .ok settings => runTree level t.command settings tree

def run (load : String → Source) (args : List String) : Except Fault Outcome :=
  match Invocation.ofArguments args with
  | .error stop => .ok stop.outcome
  | .ok i => do
    let level := (← i.level.value?).getD .warning
    match i.task with
    | none => return { exit := 0, out := mainHelp }
    | some t => runTask load level i.maxDepth t

end ScriptTypes.CommandLine
