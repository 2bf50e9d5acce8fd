import ScriptTypes.Descriptor.Basic

/-! `compare a b` says how much `a` tells relative to `b`. `object` tells least; a bare category
tells less than any refinement of it; functions and collections compare by what they hold; a union
tells less than each of its options and than a union of fewer of them. -/

namespace ScriptTypes

inductive Specificity where
  | less
  | equal
  | greater
  | incomparable
  deriving DecidableEq, Repr

namespace Specificity

def reverse : Specificity → Specificity
  | less => greater
  | greater => less
  | s => s

end Specificity

namespace Descriptor

/-- Every option of `as` is one of `bs`, and not the other way round. -/
def FewerOptions (as bs : List Descriptor) : Prop := as ⊆ bs ∧ ¬ bs ⊆ as

instance (as bs : List Descriptor) : Decidable (as ⊆ bs) :=
  decidable_of_iff (∀ a ∈ as, a ∈ bs) Iff.rfl

instance (as bs : List Descriptor) : Decidable (FewerOptions as bs) :=
  inferInstanceAs (Decidable (_ ∧ _))

def compare (a b : Descriptor) : Specificity :=
  if a = b then .equal
  else if b = object then .greater
  else if a = object then .less
  else
    match a, b with
    | union as, union bs =>
      if FewerOptions as bs then .greater
      else if FewerOptions bs as then .less
      else .incomparable
    | a, union bs => if a ∈ bs then .greater else .incomparable
    | union as, b => if b ∈ as then .less else .incomparable
    | collection k a, collection l b => if k = l then compare a b else .incomparable
    | anyCollection k, collection l _ => if k = l then .less else .incomparable
    | collection k _, anyCollection l => if k = l then .greater else .incomparable
    | function a, function b => compare a b
    | anyFunction, function _ => .less
    | function _, anyFunction => .greater
    | a, collection _ _ | a, anyCollection _ => if a = array then .less else .incomparable
    | collection _ _, b | anyCollection _, b => if b = array then .greater else .incomparable
    | a, function _ | a, anyFunction => if a = callable then .less else .incomparable
    | function _, b | anyFunction, b => if b = callable then .greater else .incomparable
    | primitive _, primitive _ => .incomparable

/-- Tells strictly more. -/
def Beats (a b : Descriptor) : Prop := compare a b = .greater

instance (a b : Descriptor) : Decidable (Beats a b) := inferInstanceAs (Decidable (_ = _))

/-- The options a descriptor stands for, one level deep. -/
def alternatives : Descriptor → List Descriptor
  | union options => options
  | d => [d]

/-- A union of a set of options, as plain as it can be. -/
def ofSet : List Descriptor → Descriptor
  | [] => object
  | [d] => d
  | ds => union ds

/-- Either of the given descriptors. Unions among them are opened, and `object` is dropped beside
anything else. -/
def either (ds : List Descriptor) : Descriptor :=
  let set := optionSet (ds.flatMap alternatives)
  ofSet (if 1 < set.length then set.filter (· ≠ object) else set)

def survivors (ds : List Descriptor) : List Descriptor :=
  ds.filter fun d => ds.all fun e => compare d e ≠ .less

/-- What flows together in one place. -/
def unify (ds : List Descriptor) : Descriptor :=
  match survivors ds.eraseDups with
  | [] => object
  | [d] => d
  | ds => either ds

def isCollection : Descriptor → Bool
  | collection _ _ | anyCollection _ => true
  | d => d = array

def isStructuredFunction : Descriptor → Bool
  | function _ | anyFunction => true
  | _ => false

def isFunction (d : Descriptor) : Bool := d.isStructuredFunction || d = callable

def element : Descriptor → Descriptor
  | collection _ element => element
  | _ => object

def result : Descriptor → Descriptor
  | function result => result
  | _ => object

def isConcrete : Descriptor → Bool
  | union _ => false
  | d => d ≠ object

def intOrString : Descriptor := either [int, string]

end Descriptor

end ScriptTypes
