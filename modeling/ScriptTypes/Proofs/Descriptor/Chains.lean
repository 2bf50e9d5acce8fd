import Mathlib.Logic.Relation
import ScriptTypes.Proofs.Descriptor.Acyclic

/-! Comparing two descriptors the other way round gives the mirror image of the answer. A descriptor
that is reached through steps that each tell more may not be comparable with the first one, but it
never tells less. -/

namespace ScriptTypes

namespace Descriptor

@[simp] theorem compare_self (a : Descriptor) : compare a a = .equal := by
  unfold compare
  exact if_pos rfl

theorem FewerOptions.asymm {as bs : List Descriptor} (fewer : FewerOptions as bs) :
    ¬ FewerOptions bs as := fun more => fewer.2 more.1

theorem eq_of_compare_equal {a b : Descriptor} (equal : compare a b = .equal) : a = b := by
  fun_induction compare a b <;> simp_all

/-- Who refines is greater, and the other is less. -/
theorem compare_of_refines {a b : Descriptor} (refines : Refines a b) :
    compare a b = .greater ∧ compare b a = .less := by
  induction refines with
  | object proper =>
    unfold compare
    simp [proper, proper.symm]
  | @fewer as bs fewer =>
    have apart : as ≠ bs := by
      rintro rfl
      exact fewer.asymm fewer
    unfold compare
    simp [apart, apart.symm, fewer, fewer.asymm]
  | @option a bs plain proper member =>
    unfold compare
    cases a with
    | union as => simp [isUnion] at plain
    | _ => simp_all
  | @element kind a b _ ih =>
    have apart : a ≠ b := by
      rintro rfl
      simp at ih
    unfold compare
    simp [apart, apart.symm, ih]
  | @result a b _ ih =>
    have apart : a ≠ b := by
      rintro rfl
      simp at ih
    unfold compare
    simp [apart, apart.symm, ih]
  | known =>
    unfold compare
    simp
  | returning =>
    unfold compare
    simp
  | @array a collective proper =>
    unfold compare
    cases a <;> simp_all [isCollection]
  | @callable a structured =>
    unfold compare
    cases a <;> simp_all [isStructuredFunction]

theorem refines_of_less {a b : Descriptor} (less : compare a b = .less) : Refines b a := by
  fun_induction compare a b <;> try contradiction
  case case3 proper _ => exact .object proper
  case case5 fewer _ _ _ => exact .fewer fewer
  case case9 b plain member _ proper _ =>
    refine .option ?_ proper member
    cases b with
    | union bs => exact absurd rfl (plain bs)
    | _ => rfl
  case case11 ih => exact .element (ih less)
  case case13 => exact .known
  case case17 ih => exact .result (ih less)
  case case18 => exact .returning
  case case20 => exact .array rfl (by simp)
  case case22 => exact .array rfl (by simp)
  case case28 => exact .callable rfl
  case case30 => exact .callable rfl

theorem compare_less_iff {a b : Descriptor} : compare a b = .less ↔ b.Beats a :=
  ⟨fun less => (compare_of_refines (refines_of_less less)).1,
    fun beats => (compare_of_refines (refines_of_beats beats)).2⟩

theorem compare_incomparable {a b : Descriptor} (apart : a ≠ b) (notBelow : ¬ b.Beats a)
    (notAbove : ¬ a.Beats b) : compare a b = .incomparable := by
  cases answer : compare a b with
  | less => exact absurd (compare_less_iff.mp answer) notBelow
  | equal => exact absurd (eq_of_compare_equal answer) apart
  | greater => exact absurd answer notAbove
  | incomparable => rfl

/-- The second descriptor is the first one, or is reached from it by steps to one that tells
more. -/
def GrowsTo : Descriptor → Descriptor → Prop := Relation.ReflTransGen fun a b => b.Beats a

namespace GrowsTo

variable {a b c : Descriptor}

theorem refl (a : Descriptor) : a.GrowsTo a := Relation.ReflTransGen.refl

theorem step (grows : a.GrowsTo b) (beats : c.Beats b) : a.GrowsTo c :=
  Relation.ReflTransGen.tail grows beats

theorem trans (first : a.GrowsTo b) (second : b.GrowsTo c) : a.GrowsTo c :=
  Relation.ReflTransGen.trans first second

/-- Strength does not fall along a chain, once it is measured for the widest union on it. -/
theorem strength_le (grows : a.GrowsTo b) :
    ∃ least, ∀ most, least ≤ most → strength most a ≤ strength most b := by
  induction grows with
  | refl => exact ⟨0, fun most _ => Nat.le_refl _⟩
  | @tail b c _ beats ih =>
    obtain ⟨least, rises⟩ := ih
    refine ⟨max least (max b.width c.width), ?_⟩
    intro most wide
    have grown : strength most b < strength most c :=
      strength_lt_of_beats beats (by omega) (by omega)
    exact Nat.le_trans (rises most (by omega)) (Nat.le_of_lt grown)

/-- The end of a chain never tells less than its beginning. -/
theorem not_less (grows : a.GrowsTo b) : compare b a ≠ .less := by
  intro less
  obtain ⟨least, rises⟩ := grows.strength_le
  let most := max least (max a.width b.width)
  have grown : strength most b < strength most a :=
    strength_lt_of_beats (compare_less_iff.mp less) (by omega) (by omega)
  have kept := rises most (Nat.le_max_left _ _)
  omega

end GrowsTo

end Descriptor

end ScriptTypes
