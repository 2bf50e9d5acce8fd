/-! `distance s t` counts the insertions, deletions and substitutions of one character that turn `s`
into `t`. It is computed row by row along the longer text, keeping one row at a time: the row after
some characters of one text holds their distances to every prefix of the other, shortest first. -/

namespace ScriptTypes.Text

/-- The cells of a row from left to right, each from the one before it and the two above. -/
def cells (c : Char) (left : Nat) : List Char → List Nat → List Nat
  | d :: t, diagonal :: above :: row =>
    let cell := min (min (above + 1) (left + 1)) (diagonal + if c = d then 0 else 1)
    cell :: cells c cell t (above :: row)
  | _, _ => []

/-- The row after one more character, given with its index. -/
def nextRow (t : List Char) (row : List Nat) (c : Char × Nat) : List Nat :=
  (c.2 + 1) :: cells c.1 (c.2 + 1) t row

def lastRow (s t : List Char) : List Nat :=
  s.zipIdx.foldl (nextRow t) (List.range (t.length + 1))

def distanceFromLonger (s t : List Char) : Nat :=
  if t.isEmpty then s.length else (lastRow s t).getLastD 0

def distance (s t : String) : Nat :=
  if s.length < t.length then distanceFromLonger t.toList s.toList
  else distanceFromLonger s.toList t.toList

end ScriptTypes.Text
