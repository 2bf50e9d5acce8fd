import ScriptTypes.Text.Distance

/-! Known names within a distance of the given one, nearest first and then by code points. A name
whose length alone puts it out of reach is passed over without measuring it. -/

namespace ScriptTypes.Text

/-- The first `stop` items; a negative `stop` counts from the end. -/
def keepUntil (stop : Int) (items : List α) : List α :=
  items.take (if 0 ≤ stop then stop.toNat else items.length - stop.natAbs)

def lengthGap (s t : String) : Nat := ((s.length : Int) - t.length).natAbs

/-- Nearer first, then by code points. -/
def nearer (x y : Nat × String) : Bool :=
  decide (x.1 < y.1) || (decide (x.1 = y.1) && decide (x.2 ≤ y.2))

def within (reach : Int) (name candidate : String) : Option (Nat × String) :=
  if candidate = name ∨ reach < lengthGap candidate name then none
  else
    let d := distance name candidate
    if (d : Int) ≤ reach then some (d, candidate) else none

def suggestions (name : String) (known : List String) (reach : Int := 2) (stop : Int := 3) :
    List String :=
  (keepUntil stop ((known.filterMap (within reach name)).mergeSort nearer)).map Prod.snd

end ScriptTypes.Text
