import ScriptTypes.Proofs.Descriptor.Chains

/-! A comparison says `equal` of the same descriptor only, and the other way round it says the
mirror image. Three descriptors of which each tells more than the next need not be comparable: a
union is compared with its options themselves and not with what refines them. This module says
exactly when the first of them still tells more than the last. -/

namespace ScriptTypes

namespace Descriptor

variable {a b c : Descriptor}

theorem compare_swap (a b : Descriptor) : compare b a = (compare a b).reverse := by
  cases answer : compare a b with
  | less => exact compare_less_iff.mp answer
  | greater => exact compare_less_iff.mpr answer
  | equal =>
    rw [eq_of_compare_equal answer]
    exact compare_self b
  | incomparable =>
    apply compare_incomparable
    · rintro rfl
      rw [compare_self] at answer
      cases answer
    · intro beats
      cases answer.symm.trans beats
    · intro beats
      cases answer.symm.trans (compare_less_iff.mpr beats)

/-- Only a descriptor and itself are equal, and what one comparison says the opposite one mirrors. -/
theorem compare_mirrors (a b : Descriptor) :
    (compare a b = .equal ↔ a = b) ∧ compare b a = (compare a b).reverse := by
  refine ⟨⟨eq_of_compare_equal, ?_⟩, compare_swap a b⟩
  rintro rfl
  exact compare_self a

/-- Inside the same functions and collections, the third descriptor is a union that lists the second
one but not the first. -/
inductive Overlooks : Descriptor → Descriptor → Descriptor → Prop where
  | option {a b : Descriptor} {options : List Descriptor} :
      b.isUnion = false → b ∈ options → a ∉ options → Overlooks a b (union options)
  | element {kind : String} {a b c : Descriptor} :
      Overlooks a b c → Overlooks (collection kind a) (collection kind b) (collection kind c)
  | result {a b c : Descriptor} : Overlooks a b c → Overlooks (function a) (function b) (function c)

namespace Refines

theorem ne_object (refines : Refines a b) : a ≠ Descriptor.object := by
  cases refines with
  | object proper => exact proper
  | option _ proper _ => exact proper
  | array collective _ =>
    rintro rfl
    simp [isCollection] at collective
  | callable structured =>
    rintro rfl
    cases structured
  | _ => simp

theorem isUnion_eq_false (refines : Refines a b) (plain : b.isUnion = false)
    (proper : b ≠ Descriptor.object) : a.isUnion = false := by
  cases refines with
  | object => exact absurd rfl proper
  | fewer => cases plain
  | option => cases plain
  | @array a collective _ => cases a <;> first | rfl | simp [isCollection] at collective
  | @callable a structured => cases a <;> first | rfl | cases structured
  | _ => rfl

theorem trans_iff (first : Refines a b) (second : Refines b c) :
    Refines a c ↔ ¬ Overlooks a b c := by
  induction second generalizing a with
  | object _ =>
    refine ⟨fun _ overlooks => ?_, fun _ => .object first.ne_object⟩
    cases overlooks
  | @fewer bs cs fewer =>
    refine ⟨fun _ overlooks => ?_, fun _ => ?_⟩
    · cases overlooks with
      | option plain _ _ => cases plain
    · cases first with
      | @fewer as _ least =>
        exact .fewer ⟨List.Subset.trans least.1 fewer.1,
          fun all => fewer.2 (List.Subset.trans all least.1)⟩
      | option plain proper member => exact .option plain proper (fewer.1 member)
  | @option b cs plain proper member =>
    have plainer := first.isUnion_eq_false plain proper
    constructor
    · intro refines overlooks
      cases overlooks with
      | option _ _ missing =>
        cases refines with
        | fewer => cases plainer
        | option _ _ listed => exact missing listed
    · intro listed
      refine .option plainer first.ne_object ?_
      by_contra missing
      exact listed (.option plain member missing)
  | @element kind b c _ ih =>
    cases first with
    | @element _ a _ inner =>
      constructor
      · intro refines overlooks
        cases refines with
        | element outer =>
          cases overlooks with
          | element deeper => exact (ih inner).mp outer deeper
      · intro seen
        exact .element ((ih inner).mpr fun overlooks => seen (.element overlooks))
  | @result b c _ ih =>
    cases first with
    | @result a _ inner =>
      constructor
      · intro refines overlooks
        cases refines with
        | result outer =>
          cases overlooks with
          | result deeper => exact (ih inner).mp outer deeper
      · intro seen
        exact .result ((ih inner).mpr fun overlooks => seen (.result overlooks))
  | known =>
    cases first with
    | element => exact ⟨fun _ overlooks => (by cases overlooks), fun _ => .known⟩
  | returning =>
    cases first with
    | result => exact ⟨fun _ overlooks => (by cases overlooks), fun _ => .returning⟩
  | @array b collective proper =>
    refine ⟨fun _ overlooks => (by cases overlooks), fun _ => ?_⟩
    cases first with
    | element => exact .array rfl (by simp)
    | known => exact .array rfl (by simp)
    | array => exact absurd rfl proper
    | _ => simp [isCollection] at collective
  | @callable b structured =>
    refine ⟨fun _ overlooks => (by cases overlooks), fun _ => ?_⟩
    cases first with
    | result => exact .callable rfl
    | returning => exact .callable rfl
    | _ => cases structured

end Refines

/-- Of three descriptors that each tell more than the next, the first tells more than the last, unless
that is a union, in the same place inside all three, which lists the second but not the first:
then they are incomparable. -/
theorem compare_across (first : compare a b = .greater) (second : compare b c = .greater) :
    compare a c = .greater ∧ ¬ Overlooks a b c ∨
      compare a c = .incomparable ∧ Overlooks a b c := by
  have across := (refines_of_beats first).trans_iff (refines_of_beats second)
  by_cases overlooks : Overlooks a b c
  · refine .inr ⟨?_, overlooks⟩
    have grows : c.GrowsTo a := ((GrowsTo.refl c).step second).step first
    apply compare_incomparable
    · rintro rfl
      cases first.symm.trans (compare_less_iff.mpr second)
    · intro less
      exact grows.not_less (compare_less_iff.mpr less)
    · intro beats
      exact across.mp (refines_of_beats beats) overlooks
  · exact .inl ⟨(compare_of_refines (across.mpr overlooks)).1, overlooks⟩

theorem arrays_compare_across :
    compare (function (arrayOf int)) (function array) = .greater ∧
    compare (function array) callable = .greater ∧
    compare (function array) (function (union [array, int])) = .greater ∧
    compare (function (arrayOf int)) callable = .greater ∧
    compare (function (arrayOf int)) (function (union [array, int])) = .incomparable := by
  have first : compare (function (arrayOf int)) (function array) = .greater := by decide
  have bare : compare (function array) callable = .greater := by decide
  have listed : compare (function array) (function (union [array, int])) = .greater := by decide
  refine ⟨first, bare, listed, ?_, ?_⟩
  · rcases compare_across first bare with ⟨greater, _⟩ | ⟨_, overlooks⟩
    · exact greater
    · cases overlooks
  · rcases compare_across first listed with ⟨_, seen⟩ | ⟨incomparable, _⟩
    · exact absurd (.result (.option rfl (by decide) (by decide))) seen
    · exact incomparable

theorem beats_not_transitive : ¬ ∀ a b c : Descriptor, a.Beats b → b.Beats c → a.Beats c := by
  intro transitive
  have beats := transitive (arrayOf int) array (union [array, int]) (by decide) (by decide)
  revert beats
  decide

end Descriptor

end ScriptTypes
