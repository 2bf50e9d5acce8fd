import Mathlib.Data.Finset.Card
import Mathlib.Data.Set.Finite.List
import ScriptTypes.Candidates
import ScriptTypes.Method
import ScriptTypes.Operator
import ScriptTypes.Proofs.Descriptor.Order

/-! The descriptors that inference works with: known primitives, functions with a result, arrays
with an element, and unions of at least two options of which none is a union or `object`. Merging
and taking apart stay among them, and only finitely many of them have a bounded depth. -/

namespace ScriptTypes

namespace Descriptor

/-- The primitives that rules produce. -/
def knownNames : List String := ["int", "double", "string", "bool", "object", "void", "array"]

def isUnion : Descriptor → Bool
  | union _ => true
  | _ => false

inductive Canonical : Descriptor → Prop where
  | primitive {name : String} : name ∈ knownNames → Canonical (primitive name)
  | function {result : Descriptor} : Canonical result → Canonical (function result)
  | array {element : Descriptor} : Canonical element → Canonical (arrayOf element)
  | union {options : List Descriptor} : 2 ≤ options.length → Ascending options →
      (∀ o ∈ options, o ≠ object ∧ o.isUnion = false) → (∀ o ∈ options, Canonical o) →
      Canonical (union options)

namespace Canonical

theorem known {name : String} (member : name ∈ knownNames := by decide) :
    Canonical (Descriptor.primitive name) := primitive member

theorem options {ds : List Descriptor} (canonical : Canonical (Descriptor.union ds)) :
    ∀ o ∈ ds, Canonical o ∧ o.isUnion = false := by
  cases canonical with
  | union _ _ plain inner => exact fun o member => ⟨inner o member, (plain o member).2⟩

theorem alternatives {d x : Descriptor} (canonical : Canonical d) (member : x ∈ d.alternatives) :
    Canonical x ∧ x.isUnion = false := by
  cases d with
  | union ds => exact canonical.options x member
  | _ =>
    rw [List.mem_singleton.mp member]
    exact ⟨canonical, rfl⟩

theorem element {d : Descriptor} (canonical : Canonical d) : Canonical d.element := by
  cases canonical with
  | array inner => exact inner
  | _ => exact known

theorem result {d : Descriptor} (canonical : Canonical d) : Canonical d.result := by
  cases canonical with
  | function inner => exact inner
  | _ => exact known

/-- A set of canonical options is a canonical descriptor as soon as `object` is no member beside
another. -/
theorem ofSet {ds : List Descriptor} (ascending : Ascending ds)
    (plain : 2 ≤ ds.length → ∀ o ∈ ds, o ≠ object)
    (inner : ∀ o ∈ ds, Canonical o ∧ o.isUnion = false) : Canonical (Descriptor.ofSet ds) := by
  match ds with
  | [] => exact known
  | [d] => exact (inner d (List.mem_singleton.mpr rfl)).1
  | a :: b :: rest =>
    have several : 2 ≤ (a :: b :: rest).length := by simp
    exact union several ascending (fun o member => ⟨plain several o member, (inner o member).2⟩)
      fun o member => (inner o member).1

theorem either {ds : List Descriptor} (canonical : ∀ d ∈ ds, Canonical d) :
    Canonical (Descriptor.either ds) := by
  have inner : ∀ o ∈ optionSet (ds.flatMap Descriptor.alternatives),
      Canonical o ∧ o.isUnion = false := by
    intro o member
    obtain ⟨d, listed, opened⟩ := List.mem_flatMap.mp (mem_optionSet.mp member)
    exact (canonical d listed).alternatives opened
  have ascending := ascending_optionSet (ds.flatMap Descriptor.alternatives)
  unfold Descriptor.either
  by_cases several : 1 < (optionSet (ds.flatMap Descriptor.alternatives)).length
  · simp only [several, if_true]
    refine ofSet (ascending.sublist List.filter_sublist) ?_ ?_
    · intro _ o member
      simpa using (List.mem_filter.mp member).2
    · exact fun o member => inner o (List.mem_filter.mp member).1
  · simp only [several, if_false]
    exact ofSet ascending (fun long => absurd long several) inner

theorem unify {ds : List Descriptor} (canonical : ∀ d ∈ ds, Canonical d) :
    Canonical (Descriptor.unify ds) := by
  have kept : ∀ d ∈ survivors ds.eraseDups, Canonical d := by
    intro d member
    exact canonical d (List.mem_eraseDups.mp (List.mem_filter.mp member).1)
  unfold Descriptor.unify
  split
  · exact known
  · next d only => exact kept d (by simp [only])
  · exact either kept

theorem resolve {cs : List Descriptor} (canonical : ∀ c ∈ cs, Canonical c) :
    Canonical (Candidates.resolve cs) := by
  unfold Candidates.resolve
  split
  · exact known
  · next d => exact canonical d (List.mem_singleton.mpr rfl)
  · exact either canonical

theorem intOrString : Canonical Descriptor.intOrString :=
  either fun d member => by
    rcases List.mem_pair.mp member with rfl | rfl <;> exact known

theorem operation (operation : Operation) (left right : Descriptor) :
    Canonical (operation.result left right) := by
  cases operation with
  | plus =>
    simp only [Operation.result]
    split
    · exact known
    split
    · exact known
    split
    · exact known
    · exact intOrString
  | arithmetic =>
    simp only [Operation.result]
    split <;> exact known
  | bitwise => exact known
  | relational => exact known
  | equality => exact known

theorem numericLike (d : Descriptor) : Canonical (ScriptTypes.numericLike d) := by
  unfold ScriptTypes.numericLike
  split <;> exact known

theorem stringMethod {method : String} {d : Descriptor} (found : stringMethod? method = some d) :
    Canonical d := by
  unfold stringMethod? at found
  split at found <;> simp only [Option.some.injEq, reduceCtorEq] at found
  all_goals subst found
  all_goals first | exact known | exact array known

end Canonical

/-- A sort of descriptors that the rules do not leave. -/
structure Ample (sort : Descriptor → Prop) : Prop where
  canonical {d : Descriptor} : Canonical d → sort d
  function {d : Descriptor} : sort d → sort (function d)
  array {d : Descriptor} : sort d → sort (arrayOf d)
  element {d : Descriptor} : sort d → sort d.element
  result {d : Descriptor} : sort d → sort d.result
  unify {ds : List Descriptor} : (∀ d ∈ ds, sort d) → sort (unify ds)

theorem Canonical.ample : Ample Canonical := ⟨id, .function, .array, .element, .result, .unify⟩

namespace Ample

theorem all : Ample fun _ => True := by constructor <;> intros <;> trivial

variable {sort : Descriptor → Prop} (ample : Ample sort)

include ample

theorem known {name : String} (member : name ∈ knownNames := by decide) : sort (primitive name) :=
  ample.canonical (.known member)

theorem collectionMethod {receiver d : Descriptor} {method : String} (holds : sort receiver)
    (found : collectionMethod? receiver method = some d) : sort d := by
  unfold collectionMethod? at found
  split at found <;> simp only [Option.some.injEq, reduceCtorEq] at found
  all_goals subst found
  all_goals first | exact ample.known | exact ample.element holds | exact holds

end Ample

theorem depth_le_depthAll {d : Descriptor} {ds : List Descriptor} (member : d ∈ ds) :
    d.depth ≤ depthAll ds := by
  induction ds with
  | nil => cases member
  | cons x xs ih =>
    rw [depthAll]
    rcases List.mem_cons.mp member with rfl | member
    · exact Nat.le_max_left _ _
    · exact Nat.le_trans (ih member) (Nat.le_max_right _ _)

theorem depthAll_le {ds : List Descriptor} {n : Nat} (shallow : ∀ d ∈ ds, d.depth ≤ n) :
    depthAll ds ≤ n := by
  induction ds with
  | nil => exact Nat.zero_le n
  | cons d ds ih =>
    rw [depthAll]
    exact Nat.max_le.mpr ⟨shallow d List.mem_cons_self,
      ih fun e member => shallow e (List.mem_cons_of_mem _ member)⟩

theorem depth_le_of_alternative {d x : Descriptor} (member : x ∈ d.alternatives) :
    x.depth ≤ d.depth := by
  cases d with
  | union ds => exact depth_le_depthAll member
  | _ =>
    rw [List.mem_singleton.mp member]

theorem depth_ofSet_le {ds : List Descriptor} {n : Nat} (shallow : ∀ d ∈ ds, d.depth ≤ n) :
    (ofSet ds).depth ≤ n := by
  match ds with
  | [] => exact Nat.zero_le n
  | [d] => exact shallow d (List.mem_singleton.mpr rfl)
  | a :: b :: rest => exact depthAll_le shallow

theorem depth_either_le {ds : List Descriptor} {n : Nat} (shallow : ∀ d ∈ ds, d.depth ≤ n) :
    (either ds).depth ≤ n := by
  have opened : ∀ x ∈ optionSet (ds.flatMap alternatives), x.depth ≤ n := by
    intro x member
    obtain ⟨d, listed, alternative⟩ := List.mem_flatMap.mp (mem_optionSet.mp member)
    exact Nat.le_trans (depth_le_of_alternative alternative) (shallow d listed)
  apply depth_ofSet_le
  intro x member
  split at member
  · exact opened x (List.mem_filter.mp member).1
  · exact opened x member

theorem finite_lists {α : Type} {s : Set α} (finite : s.Finite) (n : Nat) :
    {l : List α | l.length ≤ n ∧ ∀ x ∈ l, x ∈ s}.Finite := by
  have small : Finite s := finite.to_subtype
  refine ((List.finite_length_le s n).image (List.map Subtype.val)).subset ?_
  rintro l ⟨short, inside⟩
  refine ⟨l.attachWith (· ∈ s) inside, ?_, by simp⟩
  change (l.attachWith (· ∈ s) inside).length ≤ n
  simpa using short

theorem finite_nodup {α : Type} {s : Set α} (finite : s.Finite) :
    {l : List α | l.Nodup ∧ ∀ x ∈ l, x ∈ s}.Finite := by
  refine (finite_lists finite finite.toFinset.card).subset ?_
  rintro l ⟨nodup, inside⟩
  refine ⟨?_, inside⟩
  classical
  rw [← List.toFinset_card_of_nodup nodup]
  refine Finset.card_le_card ?_
  intro x member
  exact finite.mem_toFinset.mpr (inside x (List.mem_toFinset.mp member))

/-- Unions do not add to the depth, so they are counted over the plain descriptors of one depth. -/
theorem finite_of_plain {n : Nat} (finite : {d | Canonical d ∧ d.isUnion = false ∧ d.depth ≤ n}.Finite) :
    {d | Canonical d ∧ d.depth ≤ n}.Finite := by
  refine (finite.union ((finite_nodup finite).image union)).subset ?_
  rintro d ⟨canonical, shallow⟩
  cases canonical with
  | union several ascending plain inner =>
    refine .inr ⟨_, ⟨ascending.nodup, ?_⟩, rfl⟩
    intro o member
    exact ⟨inner o member, (plain o member).2, Nat.le_trans (depth_le_depthAll member) shallow⟩
  | primitive known => exact .inl ⟨.primitive known, rfl, shallow⟩
  | function inner => exact .inl ⟨.function inner, rfl, shallow⟩
  | array inner => exact .inl ⟨.array inner, rfl, shallow⟩

theorem finite_primitives : {d | ∃ name ∈ knownNames, d = primitive name}.Finite := by
  refine ((List.finite_toSet knownNames).image primitive).subset ?_
  rintro d ⟨name, member, rfl⟩
  exact ⟨name, member, rfl⟩

/-- Only finitely many canonical descriptors have a given depth or less. -/
theorem finite_canonical (n : Nat) : {d | Canonical d ∧ d.depth ≤ n}.Finite := by
  induction n with
  | zero =>
    refine finite_of_plain (finite_primitives.subset ?_)
    rintro d ⟨canonical, plain, shallow⟩
    cases canonical with
    | primitive known => exact ⟨_, known, rfl⟩
    | function inner => simp [depth] at shallow
    | array inner => simp [depth] at shallow
    | union => simp [isUnion] at plain
  | succ n ih =>
    refine finite_of_plain ((finite_primitives.union
      ((ih.image function).union (ih.image arrayOf))).subset ?_)
    rintro d ⟨canonical, plain, shallow⟩
    cases canonical with
    | primitive known => exact .inl ⟨_, known, rfl⟩
    | function inner => exact .inr (.inl ⟨_, ⟨inner, by simpa [depth] using shallow⟩, rfl⟩)
    | array inner => exact .inr (.inr ⟨_, ⟨inner, by simpa [depth] using shallow⟩, rfl⟩)
    | union => simp [isUnion] at plain

end Descriptor

end ScriptTypes
