import ScriptTypes.Descriptor.Specificity
import ScriptTypes.Name

/-! What is known of a name is a list of descriptors of which none tells more than another. A new
descriptor is dropped if one of them tells as much, takes the place of those it beats, and stands
beside the rest. -/

namespace ScriptTypes

namespace Candidates

/-- Some candidate tells as much as `d`. -/
def Known (d : Descriptor) (cs : List Descriptor) : Prop :=
  d ∈ cs ∨ ∃ c ∈ cs, d.compare c = .less

instance (d : Descriptor) (cs : List Descriptor) : Decidable (Known d cs) :=
  inferInstanceAs (Decidable (_ ∨ _))

/-- Puts `d` where the first candidate that it beats stood, or at the end. -/
def insert (d : Descriptor) (cs : List Descriptor) : List Descriptor :=
  let stays (c : Descriptor) : Bool := ¬ d.Beats c
  cs.takeWhile stays ++ d :: (cs.dropWhile stays).filter stays

def sole? : List Descriptor → Option Descriptor
  | [d] => some d
  | _ => none

/-- The only candidate is a function type of another result. -/
def contradicts (d : Descriptor) (cs : List Descriptor) : Bool :=
  match sole? cs with
  | some c => c.isStructuredFunction && d.compare c = .incomparable
  | none => false

def resolve : List Descriptor → Descriptor
  | [] => .object
  | [d] => d
  | ds => .either ds

end Candidates

abbrev TypeTable := Table (List Descriptor)

namespace TypeTable

def candidates (t : TypeTable) (name : Name) : List Descriptor := (Table.get? t name).getD []

def resolve (t : TypeTable) (name : Name) : Descriptor := Candidates.resolve (t.candidates name)

/-- Worth recording: not `object`, and not too deep. -/
def Admissible (bound : Int) (d : Descriptor) : Prop := d ≠ .object ∧ (d.depth : Int) ≤ bound

instance (bound : Int) (d : Descriptor) : Decidable (Admissible bound d) :=
  inferInstanceAs (Decidable (_ ∧ _))

/-- The table once `d` is offered for a name, if that changes it. -/
def offer? (bound : Int) (name : Name) (d : Descriptor) (t : TypeTable) : Option TypeTable :=
  let cs := t.candidates name
  if Admissible bound d ∧ ¬ Candidates.Known d cs then
    some (Table.put name (Candidates.insert d cs) t)
  else none

def offer (bound : Int) (name : Name) (d : Descriptor) (t : TypeTable) : TypeTable :=
  (t.offer? bound name d).getD t

def IsOnly (name : Name) (d : Descriptor) (t : TypeTable) : Prop := Table.get? t name = some [d]

instance (name : Name) (d : Descriptor) (t : TypeTable) : Decidable (t.IsOnly name d) :=
  inferInstanceAs (Decidable (_ = _))

end TypeTable

end ScriptTypes
