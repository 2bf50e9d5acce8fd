import Mathlib.Algebra.Order.BigOperators.Group.List
import Mathlib.Algebra.Order.Ring.Nat
import Mathlib.Order.Lattice.Nat
import ScriptTypes.Inference.State
import ScriptTypes.Proofs.Candidates.Table
import ScriptTypes.Proofs.Descriptor.Acyclic

/-! An offer that is accepted may drop candidates, and what was dropped may come back. Yet the
weight of the tables grows with every accepted offer: a descriptor weighs more than all those
together that it can take the place of. -/

namespace ScriptTypes

open Descriptor (Canonical finite_canonical)

/-- More than the number of canonical descriptors of this depth. -/
noncomputable def weightBase (depth : Nat) : Nat := (finite_canonical depth).toFinset.card + 1

/-- No canonical descriptor of this depth has a wider union. -/
noncomputable def mostOptions (depth : Nat) : Nat :=
  (finite_canonical depth).toFinset.sup Descriptor.width

theorem width_le_mostOptions {d : Descriptor} {depth : Nat} (canonical : Canonical d)
    (shallow : d.depth ≤ depth) : d.width ≤ mostOptions depth :=
  Finset.le_sup (f := Descriptor.width) ((finite_canonical depth).mem_toFinset.mpr
    ⟨canonical, shallow⟩)

theorem length_lt_weightBase {cs : List Descriptor} {depth : Nat} (distinct : cs.Nodup)
    (canonical : ∀ c ∈ cs, Canonical c) (shallow : ∀ c ∈ cs, c.depth ≤ depth) :
    cs.length < weightBase depth := by
  rw [weightBase, Nat.lt_succ_iff, ← List.toFinset_card_of_nodup distinct]
  refine Finset.card_le_card ?_
  intro c member
  have listed := List.mem_toFinset.mp member
  exact (finite_canonical depth).mem_toFinset.mpr ⟨canonical c listed, shallow c listed⟩

namespace Descriptor

noncomputable def weight (depth : Nat) (d : Descriptor) : Nat :=
  weightBase depth ^ d.strength (mostOptions depth)

end Descriptor

theorem sum_pow_lt {α : Type} (base exponent : Nat) (power : α → Nat) (as : List α)
    (few : as.length < base) (smaller : ∀ a ∈ as, power a < exponent) :
    (as.map fun a => base ^ power a).sum < base ^ exponent := by
  have positive : 0 < base := by omega
  cases exponent with
  | zero =>
    cases as with
    | nil => simp
    | cons a as => exact absurd (smaller a List.mem_cons_self) (Nat.not_lt_zero _)
  | succ exponent =>
    have each : ∀ x ∈ as.map fun a => base ^ power a, x ≤ base ^ exponent := by
      intro x member
      obtain ⟨a, listed, rfl⟩ := List.mem_map.mp member
      exact Nat.pow_le_pow_right positive (Nat.le_of_lt_succ (smaller a listed))
    calc (as.map fun a => base ^ power a).sum
        ≤ (as.map fun a => base ^ power a).length * base ^ exponent := by
          simpa using List.sum_le_card_nsmul _ _ each
      _ = as.length * base ^ exponent := by rw [List.length_map]
      _ < base * base ^ exponent := Nat.mul_lt_mul_of_pos_right few (Nat.pow_pos positive)
      _ = base ^ (exponent + 1) := by rw [Nat.pow_succ, Nat.mul_comm]

namespace Candidates

noncomputable def weight (depth : Nat) (cs : List Descriptor) : Nat :=
  (cs.map (Descriptor.weight depth)).sum

/-- What is inserted makes up for those that it beats, if it measures more than all of them. -/
theorem sum_lt_insert (measure : Descriptor → Nat) {d : Descriptor} {cs : List Descriptor}
    (outweighed : ((cs.filter fun c => d.Beats c).map measure).sum < measure d) :
    (cs.map measure).sum < ((insert d cs).map measure).sum := by
  let beaten := cs.filter fun c => d.Beats c
  let staying := cs.filter fun c => ¬ d.Beats c
  have before : (cs.map measure).sum = (beaten.map measure).sum + (staying.map measure).sum := by
    have parts : (beaten ++ staying).Perm cs := by
      simpa [beaten, staying] using List.filter_append_perm (fun c => decide (d.Beats c)) cs
    rw [← (parts.map measure).sum_eq, List.map_append, List.sum_append]
  have after : ((insert d cs).map measure).sum = measure d + (staying.map measure).sum := by
    rw [((insert_perm d cs).map measure).sum_eq, List.map_cons, List.sum_cons]
  change (beaten.map measure).sum < measure d at outweighed
  omega

theorem weight_lt_insert {d : Descriptor} {cs : List Descriptor} {depth : Nat}
    (canonical : Canonical d) (shallow : d.depth ≤ depth) (distinct : cs.Nodup)
    (canonicals : ∀ c ∈ cs, Canonical c) (shallows : ∀ c ∈ cs, c.depth ≤ depth) :
    weight depth cs < weight depth (insert d cs) := by
  let beaten := cs.filter fun c => d.Beats c
  have few : beaten.length < weightBase depth :=
    Nat.lt_of_le_of_lt (List.length_filter_le _ _) (length_lt_weightBase distinct canonicals shallows)
  have weaker : ∀ c ∈ beaten, c.strength (mostOptions depth) < d.strength (mostOptions depth) := by
    intro c member
    obtain ⟨listed, beats⟩ := List.mem_filter.mp member
    exact Descriptor.strength_lt_of_beats (by simpa using beats)
      (width_le_mostOptions canonical shallow)
      (width_le_mostOptions (canonicals c listed) (shallows c listed))
  exact sum_lt_insert _ (sum_pow_lt (weightBase depth) _ _ beaten few weaker)

end Candidates

namespace Table

variable {α : Type}

def total (measure : α → Nat) (t : Table α) : Nat := (t.map fun entry => measure entry.2).sum

theorem total_put (measure : α → Nat) (t : Table α) (name : Name) (a : α) :
    total measure (put name a t) + (get? t name).elim 0 measure = total measure t + measure a := by
  induction t with
  | nil => simp [put, total, get?]
  | cons entry t ih =>
    simp only [put]
    by_cases taken : entry.1.key = name.key
    · simp [total, get?, taken]
      omega
    · have skip : get? (entry :: t) name = get? t name := by simp [get?, taken]
      rw [if_neg taken, skip]
      simp only [total, List.map_cons, List.sum_cons] at ih ⊢
      omega

end Table

namespace TypeTable

noncomputable def weight (depth : Nat) (t : TypeTable) : Nat :=
  Table.total (Candidates.weight depth) t

/-- Every accepted offer makes a table heavier. -/
theorem weight_lt_of_offer? {names : List Name} {depth : Nat} {t after : TypeTable} {name : Name}
    {d : Descriptor} {bound : Int} (lawful : Lawful names depth t) (canonical : Canonical d)
    (deep : bound ≤ depth) (accepted : t.offer? bound name d = some after) :
    t.weight depth < after.weight depth := by
  obtain ⟨admissible, _, rfl⟩ := offer?_eq_some accepted
  have shallow : d.depth ≤ depth := by
    have := admissible.2
    omega
  have heavier := Candidates.weight_lt_insert canonical shallow (lawful.candidates_nodup name)
    lawful.candidates_canonical lawful.candidates_shallow
  have balance := Table.total_put (Candidates.weight depth) t name
    (Candidates.insert d (t.candidates name))
  have old : (Table.get? t name).elim 0 (Candidates.weight depth) =
      Candidates.weight depth (t.candidates name) := by
    unfold candidates
    cases Table.get? t name <;> rfl
  unfold weight
  omega

end TypeTable

noncomputable def tablesWeight (depth : Nat) (tables : Array TypeTable) : Nat :=
  (tables.toList.map (TypeTable.weight depth)).sum

theorem tablesWeight_lt_set {depth : Nat} {tables : Array TypeTable} {s : Nat} {t : TypeTable}
    (inside : s < tables.size) (heavier : (tables[s]).weight depth < t.weight depth) :
    tablesWeight depth tables < tablesWeight depth (tables.setIfInBounds s t) := by
  let load (ts : List TypeTable) : Nat := (ts.map (TypeTable.weight depth)).sum
  have here : s < tables.toList.length := by simpa using inside
  have before : tables.toList = tables.toList.take s ++ tables[s] :: tables.toList.drop (s + 1) := by
    rw [← Array.getElem_toList, List.getElem_cons_drop, List.take_append_drop]
  have after : (tables.setIfInBounds s t).toList =
      tables.toList.take s ++ t :: tables.toList.drop (s + 1) := by
    rw [Array.toList_setIfInBounds, List.set_eq_take_append_cons_drop, if_pos here]
  have split : ∀ (left : List TypeTable) (u : TypeTable) (right : List TypeTable),
      load (left ++ u :: right) = load left + u.weight depth + load right := by
    intro left u right
    simp [load, Nat.add_assoc]
  have light := (congrArg load before).trans (split _ _ _)
  have heavy := (congrArg load after).trans (split _ _ _)
  change load tables.toList < load (tables.setIfInBounds s t).toList
  omega

end ScriptTypes
