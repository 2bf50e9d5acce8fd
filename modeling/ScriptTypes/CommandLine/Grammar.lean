import ScriptTypes.Text.Integer
import ScriptTypes.Text.Quoted

/-! A grammar has switches and one operand. Arguments are first sorted into switches and operands,
then taken from left to right. Long switches may be abbreviated and carry a value after `=`, short
flags may be joined, also by `=`, and all that follows `--` are operands. What fits nowhere is left
over. -/

namespace ScriptTypes.CommandLine

inductive Stop where
  | shown (text : String)
  | refused (usage program message : String)

/-- What to do for a switch or an operand: carry on with new settings, end, or complain. -/
inductive Verdict (σ : Type) where
  | proceed (state : σ)
  | stop (stop : Stop)
  | complain (message : String)

structure Switch (σ : Type) where
  names : List String
  takesValue : Bool
  /-- A flag has no value. -/
  apply : Option String → σ → Verdict σ

inductive Operand where
  | one
  | rest
  deriving DecidableEq

structure Grammar (σ : Type) where
  usage : String
  program : String
  switches : List (Switch σ)
  operandName : String
  operand : Operand
  applyOperand : List String → σ → Verdict σ

inductive Shape (σ : Type) where
  | operand
  | separator
  | switch (switch : Switch σ)
  | assigned (switch : Switch σ) (value : String)
  | joined (switch : Switch σ) (letters : String)
  | unknown

namespace Switch

variable {σ : Type}

def title (s : Switch σ) : String := "/".intercalate s.names

end Switch

namespace Grammar

variable {σ : Type}

def refuse {α : Type} (g : Grammar σ) (message : String) : Except Stop α :=
  .error (.refused g.usage g.program message)

def complaint (title message : String) : String := "argument " ++ title ++ ": " ++ message

def named (g : Grammar σ) : List (String × Switch σ) :=
  g.switches.flatMap fun s => s.names.map fun name => (name, s)

def find? (g : Grammar σ) (name : String) : Option (Switch σ) := g.named.lookup name

def isLong (name : String) : Bool := name.startsWith "--"

/-- The text before the first `=` and the text after it. -/
def splitValue? (arg : String) : Option (String × String) :=
  match arg.splitOn "=" with
  | name :: value :: more => some (name, "=".intercalate (value :: more))
  | _ => none

/-- The switches that an argument can stand for without being the name of one. -/
def readings (g : Grammar σ) (arg : String) : List (String × Shape σ) :=
  if isLong arg then
    match splitValue? arg with
    | some (name, value) =>
      (g.named.filter fun entry => entry.1.startsWith name).map fun entry =>
        (entry.1, .assigned entry.2 value)
    | none =>
      (g.named.filter fun entry => entry.1.startsWith arg).map fun entry =>
        (entry.1, .switch entry.2)
  else
    let short := String.ofList (arg.toList.take 2)
    g.named.filterMap fun entry =>
      if entry.1 = short then
        some (entry.1, .joined entry.2 (String.ofList (arg.toList.drop 2)))
      else if entry.1.startsWith arg then some (entry.1, .switch entry.2)
      else none

/-- A minus sign before a whole number or a decimal fraction, with or without a line end. -/
def isNegativeNumber (arg : String) : Bool :=
  match arg.toList with
  | '-' :: line =>
    let cs := if line.getLast? = some '\n' then line.dropLast else line
    let isDigit (c : Char) : Bool := (Text.digitValue? c).isSome
    match cs.dropWhile isDigit with
    | [] => !cs.isEmpty
    | '.' :: fraction => !fraction.isEmpty && fraction.all isDigit
    | _ => false
  | _ => false

def shape (g : Grammar σ) (arg : String) : Except Stop (Shape σ) :=
  if !arg.startsWith "-" ∨ arg = "-" then .ok .operand
  else
    match g.find? arg with
    | some s => .ok (.switch s)
    | none =>
      let exact := (splitValue? arg).bind fun (name, value) =>
        (g.find? name).map fun s =>
          if isLong name ∨ value = "" then Shape.assigned s value else .joined s value
      match exact with
      | some found => .ok found
      | none =>
        match g.readings arg with
        | [(_, found)] => .ok found
        | [] =>
          if isNegativeNumber arg ∨ arg.contains ' ' then .ok .operand else .ok .unknown
        | several =>
          g.refuse ("ambiguous option: " ++ arg ++ " could match " ++
            ", ".intercalate (several.map Prod.fst))

def shapes (g : Grammar σ) : List String → Except Stop (List (String × Shape σ))
  | [] => .ok []
  | arg :: args =>
    if arg = "--" then .ok ((arg, .separator) :: args.map fun arg => (arg, .operand))
    else do
      let first ← g.shape arg
      let rest ← g.shapes args
      return (arg, first) :: rest

/-- The switches that one argument sets. -/
structure Uses (σ : Type) where
  complete : List (Switch σ × Option String)
  /-- A switch whose value is the next argument. -/
  pending : Option (Switch σ)
  leftOver : List String

def alone (s : Switch σ) : Uses σ :=
  if s.takesValue then ⟨[], some s, []⟩ else ⟨[(s, none)], none, []⟩

/-- A bare separator is no value. -/
def value? (text : String) : Option String := if text = "--" then none else some text

def ignored (g : Grammar σ) (s : Switch σ) (text : String) : Except Stop (Uses σ) :=
  g.refuse (complaint s.title ("ignored explicit argument " ++ Text.quoted text))

def assigned (g : Grammar σ) (s : Switch σ) (value : String) : Except Stop (Uses σ) :=
  if s.takesValue then .ok ⟨[(s, value? value)], none, []⟩ else g.ignored s value

/-- What follows the letter of a short switch is its value, or the letters of more flags. -/
def joined (g : Grammar σ) (s : Switch σ) : List Char → Except Stop (Uses σ)
  | [] => .ok (alone s)
  | c :: rest =>
    if s.takesValue then .ok ⟨[(s, value? (String.ofList (c :: rest)))], none, []⟩
    else
      match g.find? (String.ofList ['-', c]) with
      | none => g.ignored s (String.ofList (c :: rest))
      | some next =>
        (g.joined next rest).map fun uses => { uses with complete := (s, none) :: uses.complete }

def uses (g : Grammar σ) (arg : String) : Shape σ → Except Stop (Uses σ)
  | .switch s => .ok (alone s)
  | .assigned s value => g.assigned s value
  | .joined s letters => g.joined s letters.toList
  | _ => .ok ⟨[], none, [arg]⟩

structure Walk (σ : Type) where
  state : σ
  wanted : Bool := true
  /-- The operand came just before, so that a separator here belongs to it. -/
  justTaken : Bool := false
  pending : Option (Switch σ) := none
  leftOver : List String := []

def settle (g : Grammar σ) (title : String) : Verdict σ → Except Stop σ
  | .proceed state => .ok state
  | .stop stop => .error stop
  | .complain message => g.refuse (complaint title message)

def applyAll (g : Grammar σ) (state : σ) (complete : List (Switch σ × Option String)) :
    Except Stop σ :=
  complete.foldlM (fun state (s, value) => g.settle s.title (s.apply value state)) state

def missingValue (g : Grammar σ) (s : Switch σ) : Except Stop (Walk σ) :=
  g.refuse (complaint s.title "expected one argument")

def takeOperand (g : Grammar σ) (args : List String) (w : Walk σ) : Except Stop (Walk σ) := do
  let state ← g.settle g.operandName (g.applyOperand args w.state)
  return { w with state, wanted := false, justTaken := true }

def walk (g : Grammar σ) : List (String × Shape σ) → Walk σ → Except Stop (Walk σ)
  | [], w =>
    match w.pending with
    | some s => g.missingValue s
    | none => .ok w
  | (arg, shape) :: rest, w =>
    match w.pending, shape with
    | some s, .operand => do
      let state ← g.applyAll w.state [(s, value? arg)]
      g.walk rest { w with state, pending := none, justTaken := false }
    | some s, _ => g.missingValue s
    | none, .operand =>
      if w.wanted then
        match g.operand with
        | .rest => g.takeOperand (arg :: rest.map Prod.fst) w
        | .one => do
          let w ← g.takeOperand [arg] w
          g.walk rest w
      else g.walk rest { w with leftOver := w.leftOver ++ [arg], justTaken := false }
    | none, .separator =>
      if w.justTaken then g.walk rest { w with justTaken := false }
      else if w.wanted ∧ !rest.isEmpty then
        match g.operand with
        | .rest => g.takeOperand (arg :: rest.map Prod.fst) w
        | .one => g.walk rest w
      else g.walk rest { w with leftOver := w.leftOver ++ [arg] }
    | none, shape => do
      let uses ← g.uses arg shape
      let state ← g.applyAll w.state uses.complete
      let leftOver := w.leftOver ++ uses.leftOver
      g.walk rest { w with state, pending := uses.pending, leftOver, justTaken := false }

/-- The settings that the arguments make, and what is left over. -/
def parse (g : Grammar σ) (required : Bool) (state : σ) (args : List String) :
    Except Stop (σ × List String) := do
  let w ← g.walk (← g.shapes args) { state }
  if required ∧ w.wanted then
    g.refuse ("the following arguments are required: " ++ g.operandName)
  return (w.state, w.leftOver)

end Grammar

end ScriptTypes.CommandLine
