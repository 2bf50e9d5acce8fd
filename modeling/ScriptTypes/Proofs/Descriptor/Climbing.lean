import Mathlib.Order.OrderIsoNat
import ScriptTypes.Proofs.Descriptor.Comparison

/-! A descriptor is beaten by endlessly many others: `object` by all of them, a bare category by
every refinement of it. Each step up either goes to a form that tells more, leaves options of a
union out, or improves what a function or a collection holds, which nests less deep. So as long as
the depth is bounded, every climb comes to an end. -/

namespace ScriptTypes

namespace Descriptor

/-- Tells strictly more and nests less deep than `bound`. -/
def BeatsBelow (bound : Nat) (a b : Descriptor) : Prop := a.depth < bound ∧ a.Beats b

namespace BeatsBelow

variable {bound : Nat} {a b : Descriptor}

theorem refines (beats : BeatsBelow bound a b) : Refines a b := refines_of_beats beats.2

theorem of_refines (shallow : a.depth < bound) (refines : Refines a b) : BeatsBelow bound a b :=
  ⟨shallow, (compare_of_refines refines).1⟩

/-- What is beaten only by way of what it holds is climbed from no longer than that, one level less
deep. -/
theorem acc_around {around : Descriptor → Descriptor} {d : Descriptor}
    (deeper : ∀ d, (around d).depth = d.depth + 1)
    (inside : ∀ a d, Refines a (around d) → ∃ b, a = around b ∧ Refines b d)
    (ends : Acc (BeatsBelow bound) d) : Acc (BeatsBelow (bound + 1)) (around d) := by
  induction ends with
  | intro d _ ih =>
    refine Acc.intro _ fun above beats => ?_
    obtain ⟨better, rfl, refines⟩ := inside above d beats.refines
    have shallow : better.depth < bound := by
      have := beats.1
      rw [deeper] at this
      omega
    exact ih better (of_refines shallow refines)

theorem acc_collection (kind : String) {element : Descriptor}
    (ends : Acc (BeatsBelow bound) element) :
    Acc (BeatsBelow (bound + 1)) (collection kind element) := by
  refine acc_around (fun _ => by rw [depth]) ?_ ends
  intro above element refines
  cases refines with
  | element inner => exact ⟨_, rfl, inner⟩

theorem acc_function {result : Descriptor} (ends : Acc (BeatsBelow bound) result) :
    Acc (BeatsBelow (bound + 1)) (function result) := by
  refine acc_around (fun _ => by rw [depth]) ?_ ends
  intro above result refines
  cases refines with
  | result inner => exact ⟨_, rfl, inner⟩

section

variable (ends : ∀ d, Acc (BeatsBelow bound) d)

include ends

theorem acc_anyCollection (kind : String) : Acc (BeatsBelow (bound + 1)) (anyCollection kind) := by
  refine Acc.intro _ fun above beats => ?_
  cases beats.refines with
  | known => exact acc_collection kind (ends _)

theorem acc_anyFunction : Acc (BeatsBelow (bound + 1)) anyFunction := by
  refine Acc.intro _ fun above beats => ?_
  cases beats.refines with
  | returning => exact acc_function (ends _)

theorem acc_primitive {name : String} (proper : primitive name ≠ object) :
    Acc (BeatsBelow (bound + 1)) (primitive name) := by
  refine Acc.intro _ fun above beats => ?_
  cases beats.refines with
  | object => exact absurd rfl proper
  | array collective apart =>
    cases above with
    | collection kind element => exact acc_collection kind (ends element)
    | anyCollection kind => exact acc_anyCollection ends kind
    | primitive name => exact absurd (by simpa [isCollection] using collective) apart
    | _ => simp [isCollection] at collective
  | callable structured =>
    cases above with
    | function result => exact acc_function (ends result)
    | anyFunction => exact acc_anyFunction ends
    | _ => simp [isStructuredFunction] at structured

theorem acc_plain {d : Descriptor} (plain : d.isUnion = false) (proper : d ≠ object) :
    Acc (BeatsBelow (bound + 1)) d := by
  cases d with
  | primitive name => exact acc_primitive ends proper
  | anyFunction => exact acc_anyFunction ends
  | function result => exact acc_function (ends result)
  | anyCollection kind => exact acc_anyCollection ends kind
  | collection kind element => exact acc_collection kind (ends element)
  | union options => cases plain

/-- A union gives way to a smaller union or to an option that is none. -/
theorem acc_union (options : List Descriptor) :
    Acc (BeatsBelow (bound + 1)) (union options) := by
  induction size : options.toFinset.card using Nat.strong_induction_on generalizing options with
  | _ n ih =>
    refine Acc.intro _ fun above beats => ?_
    cases beats.refines with
    | fewer fewer => exact ih _ (size ▸ card_lt_of_fewerOptions fewer) _ rfl
    | option plain proper _ => exact acc_plain ends plain proper

theorem acc_of_ne_object {d : Descriptor} (proper : d ≠ object) :
    Acc (BeatsBelow (bound + 1)) d := by
  cases shape : d.isUnion with
  | false => exact acc_plain ends shape proper
  | true =>
    cases d with
    | union options => exact acc_union ends options
    | _ => cases shape

theorem acc_object : Acc (BeatsBelow (bound + 1)) object := by
  refine Acc.intro _ fun above beats => ?_
  exact acc_of_ne_object ends beats.refines.ne_object

end

theorem wellFounded (bound : Nat) : WellFounded (BeatsBelow bound) := by
  constructor
  induction bound with
  | zero => exact fun d => Acc.intro d fun above beats => absurd beats.1 (Nat.not_lt_zero _)
  | succ bound ends =>
    intro d
    by_cases proper : d = object
    · exact proper ▸ acc_object ends
    · exact acc_of_ne_object ends proper

end BeatsBelow

theorem not_beats_in_circles (d : Descriptor) :
    ¬ Relation.TransGen (fun a b => Beats b a) d d := by
  intro circle
  obtain ⟨last, grows, beats⟩ := Relation.TransGen.tail'_iff.mp circle
  exact GrowsTo.not_less grows (compare_less_iff.mpr beats)

/-- Descriptors of bounded depth cannot go on telling more forever, and no descriptors tell more than
each other in a circle. -/
theorem no_endless_climb :
    (∀ bound : Int, ¬ ∃ climb : Nat → Descriptor, (∀ n, (climb n).depth ≤ bound) ∧
      ∀ n, compare (climb (n + 1)) (climb n) = .greater) ∧
    ∀ d : Descriptor, ¬ Relation.TransGen (fun a b => compare b a = .greater) d d := by
  refine ⟨?_, not_beats_in_circles⟩
  rintro bound ⟨climb, shallow, climbs⟩
  have below : ∀ n, BeatsBelow (bound.toNat + 1) (climb (n + 1)) (climb n) := by
    intro n
    have := shallow (n + 1)
    exact ⟨by omega, climbs n⟩
  exact (wellFounded_iff_isEmpty_descending_chain.mp (BeatsBelow.wellFounded _)).false
    ⟨climb, below⟩

def deepening : Nat → Descriptor
  | 0 => array
  | n + 1 => arrayOf (deepening n)

/-- The bound on the depth is needed: arrays that nest ever deeper tell more at every step. -/
theorem deepening_climbs (n : Nat) : (deepening (n + 1)).Beats (deepening n) := by
  refine (compare_of_refines ?_).1
  induction n with
  | zero => exact .array rfl (by simp [deepening])
  | succ n ih => exact .element ih

end Descriptor

end ScriptTypes
