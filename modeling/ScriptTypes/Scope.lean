import ScriptTypes.Failure
import ScriptTypes.Name

/-! The program and every function open a scope. Scopes are numbered from the program's on, and each
knows the scopes around it, innermost first. A name belongs to the innermost scope around it that
declares it, and to the outermost scope if none does. -/

namespace ScriptTypes

abbrev NodeId := Nat

abbrev ScopeId := Nat

structure Scope where
  owner : String
  outer : List ScopeId
  depthBound : Int
  /-- The last node that declares each name. -/
  declared : Table NodeId := []
  /-- The last function bound to each name. -/
  functions : Table NodeId := []

namespace Scope

def text (s : Scope) : String := "Scope(" ++ s.owner ++ ")"

def declares (s : Scope) (name : Name) : Bool := (Table.get? s.declared name).isSome

def declare (name : Name) (node : NodeId) (s : Scope) : Scope :=
  { s with declared := Table.put name node s.declared }

def bind (name : Name) (node : NodeId) (s : Scope) : Scope :=
  { s with functions := Table.put name node s.functions }

end Scope

abbrev Scopes := Array Scope

namespace Scopes

/-- The scope and those around it, innermost first. -/
def chain (scopes : Scopes) (s : ScopeId) : List ScopeId :=
  match scopes[s]? with
  | some scope => s :: scope.outer
  | none => [s]

def declares (scopes : Scopes) (name : Name) (s : ScopeId) : Bool :=
  match scopes[s]? with
  | some scope => scope.declares name
  | none => false

def outermost (scopes : Scopes) (s : ScopeId) : ScopeId := (scopes.chain s).getLastD s

/-- The scope that a name used in `s` belongs to. -/
def home (scopes : Scopes) (s : ScopeId) (name : Name) : ScopeId :=
  ((scopes.chain s).find? (scopes.declares name)).getD (scopes.outermost s)

def declaredIn (scopes : Scopes) (s : ScopeId) : List Name :=
  match scopes[s]? with
  | some scope => Table.names scope.declared
  | none => []

/-- All names that can be used in `s`, innermost first. -/
def visibleNames (scopes : Scopes) (s : ScopeId) : List Name :=
  (scopes.chain s).foldl
    (fun names outer => names ++ (scopes.declaredIn outer).filter fun name => !name.isAmong names) []

def suggestions (scopes : Scopes) (s : ScopeId) (name : Name) : Except Fault (List String) :=
  match (scopes.visibleNames s).filter (fun other => other.key ≠ name.key), name with
  | [], _ => .ok []
  | others, .text spelled =>
    match others.mapM Name.text? with
    | some known => .ok (Text.suggestions spelled known)
    | none => .error .nameNotText
  | _, _ => .error .nameNotText

/-- The node that declares a name in this very scope. -/
def declaration (scopes : Scopes) (s : ScopeId) (name : Name) : Except Failure NodeId :=
  match scopes[s]?.bind fun scope => Table.get? scope.declared name with
  | some node => .ok node
  | none =>
    match scopes.suggestions s name with
    | .ok near => .error (.report ⟨.unknownName name.toJson near, .null, none⟩)
    | .error fault => .error (.fault fault)

end Scopes

end ScriptTypes
