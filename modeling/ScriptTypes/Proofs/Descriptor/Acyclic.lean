import ScriptTypes.Proofs.Descriptor.Canonical

/-! `Refines` says declaratively when a descriptor beats another. The relation is not transitive: an
array of something beats a bare array, which beats any union that lists it, and yet the first is not
compared with the last. It has no cycles all the same, since `strength` grows along it. -/

namespace ScriptTypes

namespace Descriptor

/-- The ways in which a descriptor tells more than another. -/
inductive Refines : Descriptor → Descriptor → Prop where
  | object {a : Descriptor} : a ≠ object → Refines a object
  | fewer {as bs : List Descriptor} : FewerOptions as bs → Refines (union as) (union bs)
  | option {a : Descriptor} {bs : List Descriptor} :
      a.isUnion = false → a ≠ Descriptor.object → a ∈ bs → Refines a (union bs)
  | element {kind : String} {a b : Descriptor} :
      Refines a b → Refines (collection kind a) (collection kind b)
  | result {a b : Descriptor} : Refines a b → Refines (function a) (function b)
  | known {kind : String} {a : Descriptor} : Refines (collection kind a) (anyCollection kind)
  | returning {a : Descriptor} : Refines (function a) anyFunction
  | array {a : Descriptor} : a.isCollection = true → a ≠ array → Refines a array
  | callable {a : Descriptor} : a.isStructuredFunction = true → Refines a callable

theorem refines_of_beats {a b : Descriptor} (beats : Beats a b) : Refines a b := by
  unfold Beats at beats
  fun_induction compare a b <;> try contradiction
  case case2 apart => exact .object apart
  case case4 fewer _ _ _ => exact .fewer fewer
  case case7 a bs plain member proper _ _ =>
    refine .option ?_ proper member
    cases a with
    | union as => exact absurd rfl (plain as)
    | _ => rfl
  case case11 ih => exact .element (ih beats)
  case case15 => exact .known
  case case17 ih => exact .result (ih beats)
  case case19 => exact .returning
  case case24 => exact .array rfl (by simp)
  case case26 => exact .array rfl (by simp)
  case case32 => exact .callable rfl
  case case34 => exact .callable rfl

/-- How many options the innermost union of a chain of functions and collections has. -/
def width : Descriptor → Nat
  | function result => result.width
  | collection _ element => element.width
  | union options => options.toFinset.card
  | _ => 0

/-- A number that grows with what a descriptor tells, if no union has more than `most` options. -/
def strength (most : Nat) : Descriptor → Nat
  | primitive name => if name = "object" then 0 else most + 2
  | anyFunction => most + 3
  | function result => most + 4 + strength most result
  | anyCollection _ => most + 3
  | collection _ element => most + 4 + strength most element
  | union options => most + 1 - options.toFinset.card

theorem card_lt_of_fewerOptions {as bs : List Descriptor} (fewer : FewerOptions as bs) :
    as.toFinset.card < bs.toFinset.card := by
  refine Finset.card_lt_card (Finset.ssubset_iff_subset_ne.mpr ⟨?_, ?_⟩)
  · intro x member
    exact List.mem_toFinset.mpr (fewer.1 (List.mem_toFinset.mp member))
  · intro same
    refine fewer.2 ?_
    intro x member
    exact List.mem_toFinset.mp (same ▸ List.mem_toFinset.mpr member)

theorem strength_of_plain {a : Descriptor} (most : Nat) (plain : a.isUnion = false)
    (proper : a ≠ object) : most + 2 ≤ strength most a := by
  cases a with
  | primitive name =>
    have named : name ≠ "object" := fun same => proper (by rw [same])
    simp [strength, named]
  | union options => simp [isUnion] at plain
  | _ =>
    simp only [strength]
    omega

theorem strength_of_union {options : List Descriptor} {most : Nat}
    (narrow : (union options).width ≤ most) :
    0 < strength most (union options) ∧ strength most (union options) < most + 2 := by
  simp only [width] at narrow
  simp only [strength]
  omega

theorem strength_pos {a : Descriptor} {most : Nat} (narrow : a.width ≤ most)
    (proper : a ≠ object) : 0 < strength most a := by
  by_cases plain : a.isUnion = false
  · have := strength_of_plain most plain proper
    omega
  · cases a with
    | union options => exact (strength_of_union narrow).1
    | _ => simp [isUnion] at plain

theorem strength_lt_of_refines {a b : Descriptor} {most : Nat} (refines : Refines a b)
    (left : a.width ≤ most) (right : b.width ≤ most) : strength most b < strength most a := by
  induction refines with
  | object proper => exact strength_pos left proper
  | fewer fewer =>
    have cards := card_lt_of_fewerOptions fewer
    simp only [width] at left right
    simp only [strength]
    omega
  | option plain proper _ =>
    have strong := strength_of_plain most plain proper
    have weak := (strength_of_union right).2
    omega
  | element _ ih =>
    have inner := ih left right
    simp only [strength]
    omega
  | result _ ih =>
    have inner := ih left right
    simp only [strength]
    omega
  | known =>
    simp only [strength]
    omega
  | returning =>
    simp only [strength]
    omega
  | @array a collective proper =>
    cases a with
    | collection _ _ => simp [strength]; omega
    | anyCollection _ => simp [strength]
    | _ => simp_all [isCollection]
  | @callable a structured =>
    cases a with
    | function _ => simp [strength]; omega
    | anyFunction => simp [strength]
    | _ => simp [isStructuredFunction] at structured

theorem strength_lt_of_beats {a b : Descriptor} {most : Nat} (beats : Beats a b)
    (left : a.width ≤ most) (right : b.width ≤ most) : strength most b < strength most a :=
  strength_lt_of_refines (refines_of_beats beats) left right

end Descriptor

end ScriptTypes
