/-! A descriptor names what is known of a value's type. The options of a union form a set: they are
kept in ascending `order` and without repetition, so that equal sets are equal lists. -/

namespace ScriptTypes

inductive Descriptor where
  | primitive (name : String)
  | anyFunction
  | function (result : Descriptor)
  | anyCollection (kind : String)
  | collection (kind : String) (element : Descriptor)
  | union (options : List Descriptor)
  deriving Inhabited

namespace Descriptor

mutual
def decEq : (a b : Descriptor) → Decidable (a = b)
  | primitive m, primitive n =>
    if h : m = n then isTrue (by rw [h]) else isFalse (by simpa using h)
  | anyFunction, anyFunction => isTrue rfl
  | function a, function b =>
    match decEq a b with
    | isTrue h => isTrue (by rw [h])
    | isFalse h => isFalse (by simpa using h)
  | anyCollection k, anyCollection l =>
    if h : k = l then isTrue (by rw [h]) else isFalse (by simpa using h)
  | collection k a, collection l b =>
    match decEq a b with
    | isTrue h => if hk : k = l then isTrue (by rw [h, hk]) else isFalse (by simp [hk])
    | isFalse h => isFalse (by simp [h])
  | union as, union bs =>
    match decEqAll as bs with
    | isTrue h => isTrue (by rw [h])
    | isFalse h => isFalse (by simpa using h)
  | primitive _, anyFunction | primitive _, function _ | primitive _, anyCollection _
  | primitive _, collection _ _ | primitive _, union _
  | anyFunction, primitive _ | anyFunction, function _ | anyFunction, anyCollection _
  | anyFunction, collection _ _ | anyFunction, union _
  | function _, primitive _ | function _, anyFunction | function _, anyCollection _
  | function _, collection _ _ | function _, union _
  | anyCollection _, primitive _ | anyCollection _, anyFunction | anyCollection _, function _
  | anyCollection _, collection _ _ | anyCollection _, union _
  | collection _ _, primitive _ | collection _ _, anyFunction | collection _ _, function _
  | collection _ _, anyCollection _ | collection _ _, union _
  | union _, primitive _ | union _, anyFunction | union _, function _
  | union _, anyCollection _ | union _, collection _ _ => isFalse (by simp)
def decEqAll : (as bs : List Descriptor) → Decidable (as = bs)
  | [], [] => isTrue rfl
  | [], _ :: _ => isFalse (by simp)
  | _ :: _, [] => isFalse (by simp)
  | a :: as, b :: bs =>
    match decEq a b with
    | isTrue h =>
      match decEqAll as bs with
      | isTrue hs => isTrue (by rw [h, hs])
      | isFalse hs => isFalse (by simp [hs])
    | isFalse h => isFalse (by simp [h])
end

instance : DecidableEq Descriptor := decEq

abbrev int : Descriptor := primitive "int"

abbrev double : Descriptor := primitive "double"

abbrev string : Descriptor := primitive "string"

abbrev bool : Descriptor := primitive "bool"

/-- Nothing is known. -/
abbrev object : Descriptor := primitive "object"

abbrev void : Descriptor := primitive "void"

abbrev array : Descriptor := primitive "array"

abbrev callable : Descriptor := primitive "function"

abbrev arrayOf (element : Descriptor) : Descriptor := collection "array" element

mutual
def depth : Descriptor → Nat
  | function result => result.depth + 1
  | anyFunction => 1
  | collection _ element => element.depth + 1
  | anyCollection _ => 1
  | union options => depthAll options
  | primitive _ => 0
def depthAll : List Descriptor → Nat
  | [] => 0
  | d :: ds => max d.depth (depthAll ds)
end

mutual
/-- A function that returns nothing, or nothing known, prints as a bare one. -/
def text : Descriptor → String
  | primitive name => name
  | anyFunction => "function"
  | function result => if result = void then "function" else "func<" ++ result.text ++ ">"
  | anyCollection kind => kind
  | collection kind element => kind ++ "<" ++ element.text ++ ">"
  | union options => "|".intercalate ((texts options).mergeSort fun s t => decide (s ≤ t))
def texts : List Descriptor → List String
  | [] => []
  | d :: ds => d.text :: texts ds
end

def rank : Descriptor → Nat
  | primitive _ => 0
  | anyFunction => 1
  | function _ => 2
  | anyCollection _ => 3
  | collection _ _ => 4
  | union _ => 5

mutual
/-- A total order, by shape and then by parts. -/
def order : Descriptor → Descriptor → Ordering
  | primitive m, primitive n => compare m n
  | function a, function b => order a b
  | anyCollection k, anyCollection l => compare k l
  | collection k a, collection l b => (compare k l).then (order a b)
  | union as, union bs => orderAll as bs
  | a, b => compare a.rank b.rank
def orderAll : List Descriptor → List Descriptor → Ordering
  | [], [] => .eq
  | [], _ :: _ => .lt
  | _ :: _, [] => .gt
  | a :: as, b :: bs => (order a b).then (orderAll as bs)
end

/-- Adds an option to an ascending list, unless it is there. -/
def insertOption (d : Descriptor) : List Descriptor → List Descriptor
  | [] => [d]
  | x :: xs =>
    match order d x with
    | .lt => d :: x :: xs
    | .eq => x :: xs
    | .gt => x :: insertOption d xs

def optionSet (ds : List Descriptor) : List Descriptor := ds.foldr insertOption []

/-- The union of exactly these options. -/
def unionOf (ds : List Descriptor) : Descriptor := union (optionSet ds)

end Descriptor

end ScriptTypes
