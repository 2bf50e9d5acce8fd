import ScriptTypes.Fault
import ScriptTypes.Json.Printer

/-! A name is a text in any program that a parser produced, but any value other than a list or an
object can be looked up in a table. Numbers of one value are one name to a table, which shows it as
it was first written. -/

namespace ScriptTypes

inductive Name where
  | null
  | bool (value : Bool)
  | int (value : Int)
  | double (value : Binary64)
  | text (value : String)
  deriving DecidableEq, Repr

namespace Name

def ofJson? : Json → Option Name
  | .null => some null
  | .bool b => some (bool b)
  | .int n => some (int n)
  | .double x => some (double x)
  | .text s => some (text s)
  | .list _ | .object _ => none

def toJson : Name → Json
  | null => .null
  | bool b => .bool b
  | int n => .int n
  | double x => .double x
  | text s => .text s

def plain (name : Name) : String := name.toJson.plain

def fieldName : Name → String
  | text s => s
  | name => name.toJson.scalar

/-- What tables compare: booleans and whole doubles count as the integers that they equal. -/
def key : Name → Name
  | bool b => int b.toNat
  | double x =>
    match x.toInt? with
    | some n => int n
    | none => double x
  | name => name

def isAmong (names : List Name) (name : Name) : Bool := names.any fun other => other.key = name.key

def text? : Name → Option String
  | text s => some s
  | _ => none

def ofField : Option Json → Except Fault Name
  | none => .error .nameMissing
  | some j =>
    match ofJson? j with
    | some name => .ok name
    | none => .error .compositeKey

end Name

/-- Entries in the order in which their names were first put, no two under one key. -/
abbrev Table (α : Type) := List (Name × α)

namespace Table

variable {α : Type}

def get? (t : Table α) (name : Name) : Option α :=
  (t.find? fun entry => entry.1.key = name.key).map Prod.snd

def names (t : Table α) : List Name := t.map Prod.fst

/-- Overwrites in place, or adds at the end. -/
def put (name : Name) (a : α) : Table α → Table α
  | [] => [(name, a)]
  | (other, b) :: rest =>
    if other.key = name.key then (other, a) :: rest else (other, b) :: put name a rest

/-- Keeps what is there. -/
def putNew (name : Name) (a : α) (t : Table α) : Table α :=
  if name.isAmong (names t) then t else t ++ [(name, a)]

def erase (name : Name) (t : Table α) : Table α := t.filter fun entry => entry.1.key ≠ name.key

end Table

end ScriptTypes
