import ScriptTypes.Number.Binary64

/-! Objects keep the order of their fields, and integers of any size are apart from doubles. -/

namespace ScriptTypes

inductive Json where
  | null
  | bool (value : Bool)
  | int (value : Int)
  | double (value : Binary64)
  | text (value : String)
  | list (items : List Json)
  | object (fields : List (String × Json))

namespace Json

instance : Inhabited Json := ⟨null⟩

/-- The fields of an object; any other value has none. -/
def fields : Json → List (String × Json)
  | object fields => fields
  | _ => []

def get? (j : Json) (key : String) : Option Json := j.fields.lookup key

/-- Whether the value counts as set: not null, false, zero or empty. -/
def isSet : Json → Bool
  | null => false
  | bool b => b
  | int n => n != 0
  | double x => !x.isZero
  | text s => s != ""
  | list items => !items.isEmpty
  | object fields => !fields.isEmpty

end Json

end ScriptTypes
