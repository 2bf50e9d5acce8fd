import ScriptTypes.Candidates
import ScriptTypes.Event
import ScriptTypes.Program

/-! The candidate tables of all scopes, the types remembered for nodes, and the events so far. A
step that fails keeps the changes it made before. -/

namespace ScriptTypes

structure State where
  tables : Array TypeTable
  types : Array (Option Descriptor)
  events : Array Event := #[]

namespace State

def start (scopes nodes : Nat) : State where
  tables := Array.replicate scopes []
  types := Array.replicate nodes none

def table (st : State) (s : ScopeId) : TypeTable := st.tables[s]?.getD []

def setTable (s : ScopeId) (t : TypeTable) (st : State) : State :=
  { st with tables := st.tables.setIfInBounds s t }

def record (event : Event) (st : State) : State := { st with events := st.events.push event }

def typeAt (st : State) (n : NodeId) : Option Descriptor := st.types[n]?.join

def remember (n : NodeId) (d : Descriptor) (st : State) : State :=
  { st with types := st.types.setIfInBounds n (some d) }

def forget (n : NodeId) (st : State) : State :=
  { st with types := st.types.setIfInBounds n none }

end State

abbrev InferM := ExceptT Failure (StateM State)

namespace InferM

variable {α : Type}

def fault (f : Fault) : InferM α := throw (.fault f)

def ofFault : Except Fault α → InferM α
  | .ok a => pure a
  | .error f => fault f

/-- Runs a computation unless its result is remembered. -/
def remembering (n : NodeId) (compute : InferM Descriptor) : InferM Descriptor := do
  match (← get).typeAt n with
  | some d => return d
  | none =>
    let d ← compute
    modify (State.remember n d)
    return d

def inTurn : List (InferM α) → InferM (List α)
  | [] => pure []
  | m :: ms => do
    let a ← m
    let as ← inTurn ms
    return a :: as

/-- The one thing that a slot holds. -/
def sole : Content α → InferM α
  | .one a => pure a
  | _ => fault .notOneNode

end InferM

namespace Scopes

def textOf (scopes : Scopes) (s : ScopeId) : String :=
  match scopes[s]? with
  | some scope => scope.text
  | none => ""

def boundOf (scopes : Scopes) (s : ScopeId) : Int :=
  match scopes[s]? with
  | some scope => scope.depthBound
  | none => 0

/-- Offers a type for a name of a scope; says whether the table changed. -/
def offer (scopes : Scopes) (s : ScopeId) (name : Name) (d : Descriptor) : StateM State Bool := do
  let before := (← get).table s
  match before.offer? (scopes.boundOf s) name d with
  | none => return false
  | some after =>
    modify (State.setTable s after)
    if before.candidates name = [] then
      modify (State.record (.learned (scopes.textOf s) name d))
    else
      modify (State.record (.revised (scopes.textOf s) name (after.resolve name)))
    return true

def clear (s : ScopeId) (name : Name) : StateM State Unit :=
  modify fun st => st.setTable s (Table.erase name (st.table s))

/-- Drops all candidates of a name for one, unless it is the only one already. -/
def replace (scopes : Scopes) (s : ScopeId) (name : Name) (d : Descriptor) :
    StateM State Bool := do
  if ((← get).table s).IsOnly name d then return false
  clear s name
  scopes.offer s name d

end Scopes

end ScriptTypes
