import ScriptTypes.CommandLine.Grammar
import ScriptTypes.CommandLine.Path
import ScriptTypes.CommandLine.Usage
import ScriptTypes.Event

/-! What a list of arguments asks for. The main grammar hands everything after the command's name to
the command's own grammar. -/

namespace ScriptTypes.CommandLine

inductive Command where
  | identifiers (recursive json : Bool)
  | outline
  deriving DecidableEq

structure Task where
  command : Command
  path : String
  deriving DecidableEq

inductive Setting (α : Type) where
  | unset
  /-- Given without a value. -/
  | blank
  | value (a : α)

/-- The value of a switch that was given; a blank one has none to work with. -/
def Setting.value? {α : Type} : Setting α → Except Fault (Option α)
  | unset => .ok none
  | blank => .error .blankSwitch
  | value a => .ok (some a)

structure Invocation where
  level : Setting Level := .unset
  maxDepth : Setting Int := .unset
  task : Option Task := none
  leftOver : List String := []

def helpSwitch {σ : Type} (help : String) : Switch σ where
  names := ["-h", "--help"]
  takesValue := false
  apply := fun _ _ => .stop (.shown help)

def choices (names : List String) : String := ", ".intercalate (names.map Text.quoted)

def invalidChoice (value : String) (names : List String) : String :=
  "invalid choice: " ++ Text.quoted value ++ " (choose from " ++ choices names ++ ")"

structure ListingOptions where
  recursive : Bool := false
  json : Bool := false
  path : String := ""

def identifiersGrammar : Grammar ListingOptions where
  usage := identifiersUsage
  program := "jsinfer identifiers"
  switches :=
    [helpSwitch identifiersHelp,
      ⟨["-r", "--recursive"], false, fun _ o => .proceed { o with recursive := true }⟩,
      ⟨["--json"], false, fun _ o => .proceed { o with json := true }⟩]
  operandName := "input"
  operand := .one
  applyOperand := fun args o => .proceed { o with path := plainPath (args.headD "") }

def outlineGrammar : Grammar String where
  usage := outlineUsage
  program := "jsinfer outline"
  switches := [helpSwitch outlineHelp]
  operandName := "input"
  operand := .one
  applyOperand := fun args _ => .proceed (plainPath (args.headD ""))

def task (name : String) (args : List String) : Option (Except Stop (Task × List String)) :=
  if name = "identifiers" ∨ name = "ids" then
    some do
      let (o, leftOver) ← identifiersGrammar.parse true {} args
      return (⟨.identifiers o.recursive o.json, o.path⟩, leftOver)
  else if name = "outline" then
    some do
      let (path, leftOver) ← outlineGrammar.parse true "" args
      return (⟨.outline, path⟩, leftOver)
  else none

def applyLevel (value : Option String) (i : Invocation) : Verdict Invocation :=
  match value with
  | none => .proceed { i with level := .blank }
  | some text =>
    match Level.all.find? fun level => level.text = text with
    | some level => .proceed { i with level := .value level }
    | none => .complain (invalidChoice text (Level.all.map Level.text))

def applyDepth (value : Option String) (i : Invocation) : Verdict Invocation :=
  match value with
  | none => .proceed { i with maxDepth := .blank }
  | some text =>
    match Text.integer? text with
    | some n => .proceed { i with maxDepth := .value n }
    | none => .complain ("invalid int value: " ++ Text.quoted text)

def applyCommand (args : List String) (i : Invocation) : Verdict Invocation :=
  let name := args.headD ""
  match task name (args.drop 1) with
  | some (.ok (task, leftOver)) => .proceed { i with task := some task, leftOver }
  | some (.error stop) => .stop stop
  | none => .complain (invalidChoice name ["identifiers", "ids", "outline"])

def mainGrammar : Grammar Invocation where
  usage := mainUsage
  program := programName
  switches :=
    [helpSwitch mainHelp,
      ⟨["-V", "--version"], false, fun _ _ => .stop (.shown versionText)⟩,
      ⟨["--log-level"], true, applyLevel⟩,
      ⟨["--max-type-depth"], true, applyDepth⟩]
  operandName := "command"
  operand := .rest
  applyOperand := applyCommand

/-- What the arguments ask for. Nothing may be left over. -/
def Invocation.ofArguments (args : List String) : Except Stop Invocation := do
  let (i, leftOver) ← mainGrammar.parse false {} args
  match leftOver ++ i.leftOver with
  | [] => return i
  | unknown => mainGrammar.refuse ("unrecognized arguments: " ++ " ".intercalate unknown)

end ScriptTypes.CommandLine
