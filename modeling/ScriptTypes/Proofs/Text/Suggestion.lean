import ScriptTypes.Proofs.Text.Distance
import ScriptTypes.Text.Suggestion

/-! A text is no nearer to another than their lengths differ, so passing over a candidate by its
length alone loses none within reach. What is left is ranked by distance and then by code points,
which leaves one order only, and the suggestions are its beginning. -/

namespace ScriptTypes.Text

def Qualifies (reach : Int) (name candidate : String) : Prop :=
  candidate ≠ name ∧ (distance name candidate : Int) ≤ reach

instance (reach : Int) (name candidate : String) : Decidable (Qualifies reach name candidate) :=
  inferInstanceAs (Decidable (_ ∧ _))

/-- Nearer to the name, or as near and not after the other by code points. -/
def Leads (name x y : String) : Prop :=
  distance name x < distance name y ∨ distance name x = distance name y ∧ x ≤ y

instance (name x y : String) : Decidable (Leads name x y) := inferInstanceAs (Decidable (_ ∨ _))

/-- The known texts that qualify, each as often as it is known, in order. -/
structure Ranking (reach : Int) (name : String) (known ranked : List String) : Prop where
  qualified : ranked.Perm (known.filter (Qualifies reach name))
  ordered : ranked.Pairwise (Leads name)

namespace Leads

variable {name x y z : String}

theorem trans (first : Leads name x y) (second : Leads name y z) : Leads name x z := by
  rcases first with nearer | ⟨same, before⟩
  · rcases second with later | ⟨same, _⟩
    · exact .inl (Nat.lt_trans nearer later)
    · exact .inl (same ▸ nearer)
  · rcases second with later | ⟨again, after⟩
    · exact .inl (same ▸ later)
    · exact .inr ⟨same.trans again, String.le_trans before after⟩

theorem total (name x y : String) : Leads name x y ∨ Leads name y x := by
  rcases Nat.lt_trichotomy (distance name x) (distance name y) with nearer | same | farther
  · exact .inl (.inl nearer)
  · rcases String.le_total x y with before | after
    · exact .inl (.inr ⟨same, before⟩)
    · exact .inr (.inr ⟨same.symm, after⟩)
  · exact .inr (.inl farther)

theorem antisymm (first : Leads name x y) (second : Leads name y x) : x = y := by
  rcases first with nearer | ⟨same, before⟩
  · rcases second with farther | ⟨same, _⟩ <;> omega
  · rcases second with farther | ⟨_, after⟩
    · omega
    · exact String.le_antisymm before after

end Leads

variable {reach : Int} {name : String} {known ranked : List String}

theorem Ranking.unique {other : List String} (first : Ranking reach name known ranked)
    (second : Ranking reach name known other) : ranked = other :=
  (first.qualified.trans second.qualified.symm).eq_of_pairwise (fun _ _ _ _ => Leads.antisymm)
    first.ordered second.ordered

theorem ranking_mergeSort (reach : Int) (name : String) (known : List String) :
    Ranking reach name known
      ((known.filter (Qualifies reach name)).mergeSort fun x y => Leads name x y) where
  qualified := List.mergeSort_perm _ _
  ordered := by
    refine (List.pairwise_mergeSort ?_ ?_ _).imp of_decide_eq_true
    · intro x y z
      simpa using Leads.trans
    · intro x y
      simpa using Leads.total name x y

theorem lengthGap_le_distance (s t : String) : lengthGap s t ≤ distance t s := by
  have longer := length_le_add_cost t.toList s.toList
  have shorter := length_le_add_cost s.toList t.toList
  rw [cost_comm] at shorter
  rw [distance_eq_cost]
  unfold lengthGap
  simp only [String.length_toList] at longer shorter
  omega

/-- The length filter keeps whatever qualifies. -/
theorem Qualifies.lengthGap_le {candidate : String} (qualifies : Qualifies reach name candidate) :
    (lengthGap candidate name : Int) ≤ reach := by
  have := lengthGap_le_distance candidate name
  have := qualifies.2
  omega

theorem within_eq (reach : Int) (name candidate : String) :
    within reach name candidate =
      if Qualifies reach name candidate then some (distance name candidate, candidate) else none := by
  unfold within
  by_cases qualifies : Qualifies reach name candidate
  · have kept : ¬ (candidate = name ∨ reach < lengthGap candidate name) := by
      have := qualifies.lengthGap_le
      exact not_or.mpr ⟨qualifies.1, by omega⟩
    simp only [if_neg kept, if_pos qualifies.2, if_pos qualifies]
  · rw [if_neg qualifies]
    split
    · rfl
    · next kept =>
      have far : ¬ (distance name candidate : Int) ≤ reach :=
        fun near => qualifies ⟨fun same => kept (.inl same), near⟩
      exact if_neg far

theorem suggestions_eq_take (name : String) (known : List String) (reach : Int) (stop : Nat) :
    suggestions name known reach stop =
      ((known.filter (Qualifies reach name)).mergeSort fun x y => Leads name x y).take stop := by
  let score (x : String) : Nat × String := (distance name x, x)
  let near := known.filter (Qualifies reach name)
  have scored : known.filterMap (within reach name) = near.map score := by
    rw [← List.filterMap_eq_map', List.filterMap_filter]
    simp only [within_eq, decide_eq_true_eq, score]
  have alike : ∀ x y, decide (Leads name x y) = nearer (score x) (score y) := by
    intro x y
    rw [Bool.eq_iff_iff, decide_eq_true_iff]
    simp [Leads, nearer, score]
  have sorted : (near.map score).mergeSort nearer =
      (near.mergeSort fun x y => Leads name x y).map score :=
    (List.map_mergeSort fun x _ y _ => alike x y).symm
  have plain : ∀ ranked : List String, (ranked.map score).map Prod.snd = ranked := by
    intro ranked
    rw [List.map_map]
    exact List.map_id ranked
  unfold suggestions keepUntil
  rw [scored, sorted, if_pos (Int.natCast_nonneg stop), Int.toNat_natCast, List.map_take, plain]

/-- The known texts that qualify can be ranked in one way, and the suggestions are as many of the
first ones as are wanted. Whatever the length filter passes over does not qualify. -/
theorem suggestions_exact (name : String) (known : List String) (reach : Int) (stop : Nat) :
    (∃ ranked, (∀ other, Ranking reach name known other ↔ other = ranked) ∧
      suggestions name known reach stop = ranked.take stop) ∧
    ∀ candidate, Qualifies reach name candidate → (lengthGap candidate name : Int) ≤ reach := by
  refine ⟨⟨_, fun other => ⟨fun ranking => ?_, ?_⟩, suggestions_eq_take name known reach stop⟩,
    fun candidate qualifies => qualifies.lengthGap_le⟩
  · exact ranking.unique (ranking_mergeSort reach name known)
  · rintro rfl
    exact ranking_mergeSort reach name known

end ScriptTypes.Text
