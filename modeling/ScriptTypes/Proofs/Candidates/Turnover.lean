import Mathlib.Algebra.Order.Ring.GeomSum
import Mathlib.Data.Finset.Max
import ScriptTypes.Proofs.Changes

/-! A candidate that was dropped may be accepted again, since telling more is not transitive, so the
number of offers that change a name is not just the number of types on offer. But telling more has
no circles: types can be ranked so that each drops only lower ones. Read as a binary number, with a
digit for each rank, the candidates grow with every accepted offer. -/

namespace ScriptTypes

namespace Descriptor

/-- Numbers all members of a set from zero on, each above those that it beats. -/
structure Ranks (offerable : Finset Descriptor) (rank : Descriptor → Nat) : Prop where
  distinct : ∀ d ∈ offerable, ∀ e ∈ offerable, rank d = rank e → d = e
  below : ∀ d ∈ offerable, rank d < offerable.card
  rises : ∀ d ∈ offerable, ∀ c ∈ offerable, d.Beats c → rank c < rank d

theorem Ranks.insert {offerable : Finset Descriptor} {rank : Descriptor → Nat}
    (ranks : Ranks offerable rank) {top : Descriptor} (fresh : top ∉ offerable)
    (unbeaten : ∀ d ∈ offerable, ¬ d.Beats top) :
    Ranks (insert top offerable) (Function.update rank top offerable.card) := by
  have last : Function.update rank top offerable.card top = offerable.card :=
    Function.update_self ..
  have kept : ∀ d ∈ offerable, Function.update rank top offerable.card d = rank d := by
    intro d member
    have apart : d ≠ top := fun same => fresh (same ▸ member)
    exact Function.update_of_ne apart ..
  refine ⟨?_, ?_, ?_⟩
  · intro d left e right same
    rcases Finset.mem_insert.mp left with first | left
    · rcases Finset.mem_insert.mp right with second | right
      · rw [first, second]
      · have := ranks.below e right
        rw [first, last, kept e right] at same
        omega
    · have := ranks.below d left
      rcases Finset.mem_insert.mp right with second | right
      · rw [second, last, kept d left] at same
        omega
      · rw [kept d left, kept e right] at same
        exact ranks.distinct d left e right same
  · intro d member
    rw [Finset.card_insert_of_notMem fresh]
    rcases Finset.mem_insert.mp member with rfl | member
    · omega
    · have := ranks.below d member
      have := kept d member
      omega
  · intro d left c right beats
    rcases Finset.mem_insert.mp right with rfl | right
    · rcases Finset.mem_insert.mp left with rfl | left
      · cases (compare_self d).symm.trans beats
      · exact absurd beats (unbeaten d left)
    · rw [kept c right]
      rcases Finset.mem_insert.mp left with first | left
      · rw [first, last]
        exact ranks.below c right
      · rw [kept d left]
        exact ranks.rises d left c right beats

theorem exists_ranks (offerable : Finset Descriptor) : ∃ rank, Ranks offerable rank := by
  let most := offerable.sup width
  have narrow : ∀ d ∈ offerable, d.width ≤ most := fun d member => Finset.le_sup member
  clear_value most
  induction offerable using Finset.induction_on_max_value (strength most) with
  | empty => exact ⟨fun _ => 0, by simp, by simp, by simp⟩
  | insert top rest fresh strongest ih =>
    obtain ⟨rank, ranks⟩ := ih fun d member => narrow d (Finset.mem_insert_of_mem member)
    refine ⟨_, ranks.insert fresh fun d member beats => ?_⟩
    have stronger := strength_lt_of_beats beats (narrow d (Finset.mem_insert_of_mem member))
      (narrow top (Finset.mem_insert_self top rest))
    have := strongest d member
    omega

end Descriptor

namespace Candidates

open Descriptor (Ranks)

/-- The number whose binary digits say which ranks are taken. -/
def load (rank : Descriptor → Nat) (cs : List Descriptor) : Nat := (cs.map fun c => 2 ^ rank c).sum

variable {offerable : Finset Descriptor} {rank : Descriptor → Nat} {cs : List Descriptor}

theorem load_lt (ranks : Ranks offerable rank) (distinct : cs.Nodup)
    (among : ∀ c ∈ cs, c ∈ offerable) {n : Nat} (low : ∀ c ∈ cs, rank c < n) :
    load rank cs < 2 ^ n := by
  have digits : (cs.map rank).Nodup :=
    distinct.map_on fun c left d right => ranks.distinct c (among c left) d (among d right)
  have total : load rank cs = ∑ k ∈ (cs.map rank).toFinset, 2 ^ k := by
    rw [List.sum_toFinset _ digits, List.map_map]
    rfl
  rw [total]
  refine Nat.geomSum_lt (Nat.le_refl 2) fun k member => ?_
  obtain ⟨c, listed, rfl⟩ := List.mem_map.mp (List.mem_toFinset.mp member)
  exact low c listed

theorem load_lt_insert (ranks : Ranks offerable rank) (distinct : cs.Nodup)
    (among : ∀ c ∈ cs, c ∈ offerable) {d : Descriptor} (offered : d ∈ offerable) :
    load rank cs < load rank (insert d cs) := by
  refine sum_lt_insert _ (load_lt ranks (distinct.filter _) ?_ ?_)
  · intro c member
    exact among c (List.mem_filter.mp member).1
  · intro c member
    obtain ⟨listed, beats⟩ := List.mem_filter.mp member
    exact ranks.rises d offered c (among c listed) (by simpa using beats)

end Candidates

namespace Change

variable {scopes : Scopes} {s : ScopeId} {st : State} {name : Name}

def answers (scopes : Scopes) (s : ScopeId) (name : Name) (ds : List Descriptor) (st : State) :
    List Bool := ((ds.mapM (scopes.offer s name)).run st).1

theorem answers_cons (d : Descriptor) (ds : List Descriptor) :
    answers scopes s name (d :: ds) st = ((scopes.offer s name d).run st).1 ::
      answers scopes s name ds ((scopes.offer s name d).run st).2 := by
  unfold answers
  rw [List.mapM_cons]
  rfl

theorem offer_cases (inside : s < st.tables.size) (name : Name) (d : Descriptor) :
    (scopes.offer s name d).run st = (false, st) ∨
      ∃ after, (scopes.offer s name d).run st = (true, after) ∧ s < after.tables.size ∧
        ¬ Candidates.Known d ((st.table s).candidates name) ∧
        (after.table s).candidates name =
          Candidates.insert d ((st.table s).candidates name) := by
  rcases outcome_offer scopes s name d st with ⟨_, same⟩ | ⟨table, event, accepted, changed⟩
  · rw [InferM.outcome_lift] at same
    simp only [Prod.mk.injEq, Except.ok.injEq] at same
    exact .inl (Prod.ext same.1 same.2)
  · rw [InferM.outcome_lift] at changed
    simp only [Prod.mk.injEq, Except.ok.injEq] at changed
    obtain ⟨_, fresh, rfl⟩ := TypeTable.offer?_eq_some accepted
    refine .inr ⟨_, Prod.ext changed.1 changed.2, ?_, fresh, ?_⟩
    · change s < (st.tables.setIfInBounds s _).size
      rwa [Array.size_setIfInBounds]
    · change ((st.setTable s _).table s).candidates name = _
      rw [st.table_setTable _ inside, TypeTable.candidates_put, if_pos rfl]

/-- Each offer that changes the table uses up one of the numbers above the load. -/
theorem load_add_changes_lt {offerable : Finset Descriptor} {rank : Descriptor → Nat}
    (ranks : Descriptor.Ranks offerable rank) (inside : s < st.tables.size)
    (distinct : ((st.table s).candidates name).Nodup)
    (recorded : ∀ c ∈ (st.table s).candidates name, c ∈ offerable) (ds : List Descriptor)
    (among : ∀ d ∈ ds, d ∈ offerable) :
    Candidates.load rank ((st.table s).candidates name) +
      (answers scopes s name ds st).count true < 2 ^ offerable.card := by
  induction ds generalizing st with
  | nil =>
    exact Candidates.load_lt ranks distinct recorded fun c member => ranks.below c (recorded c member)
  | cons d ds ih =>
    have later : ∀ e ∈ ds, e ∈ offerable := fun e member => among e (List.mem_cons_of_mem _ member)
    rw [answers_cons]
    rcases offer_cases inside name d with refused | ⟨after, accepted, kept, fresh, entered⟩
    · rw [refused, List.count_cons_of_ne (by simp)]
      exact ih inside distinct recorded later
    · have offered := among d List.mem_cons_self
      have heavier := Candidates.load_lt_insert ranks distinct recorded offered
      have still : ∀ c ∈ (after.table s).candidates name, c ∈ offerable := by
        rw [entered]
        intro c member
        rcases Candidates.mem_insert member with rfl | old
        · exact offered
        · exact recorded c old
      have rest := ih kept (entered ▸ Candidates.nodup_insert distinct fresh) still later
      rw [entered] at rest
      rw [accepted, List.count_cons_self]
      dsimp only
      omega

/-- However long types of a finite set are offered for a fresh name, fewer offers change its
candidates than the set has subsets. -/
theorem changes_bounded (offerable : Finset Descriptor) (scopes : Scopes) {s : ScopeId}
    {st : State} (inside : s < st.tables.size) {name : Name}
    (fresh : (st.table s).candidates name = []) (ds : List Descriptor)
    (among : ∀ d ∈ ds, d ∈ offerable) :
    (answers scopes s name ds st).count true < 2 ^ offerable.card := by
  obtain ⟨rank, ranks⟩ := Descriptor.exists_ranks offerable
  have distinct : ((st.table s).candidates name).Nodup := fresh ▸ List.nodup_nil
  have recorded : ∀ c ∈ (st.table s).candidates name, c ∈ offerable := by simp [fresh]
  exact Nat.lt_of_le_of_lt (Nat.le_add_left _ _)
    (load_add_changes_lt ranks inside distinct recorded ds among)

/-- A union that comes back once what drove it out was itself driven out. -/
def returning : List Descriptor :=
  [.unionOf [.array, .int], .array, .arrayOf .int, .unionOf [.array, .int], .array]

theorem returning_bounded :
    0 < (State.start 1 0).tables.size ∧
    ((State.start 1 0).table 0).candidates (.text "x") = [] ∧
    returning.toFinset.card = 3 ∧
    answers shallowScope 0 (.text "x") returning (.start 1 0) = [true, true, true, true, false] ∧
    (answers shallowScope 0 (.text "x") returning (.start 1 0)).count true < 2 ^ 3 := by
  have opened : 0 < (State.start 1 0).tables.size := by decide
  have fresh : ((State.start 1 0).table 0).candidates (.text "x") = [] := by decide
  have size : returning.toFinset.card = 3 := by decide +kernel
  have bounded := changes_bounded returning.toFinset shallowScope opened fresh returning
    fun d member => List.mem_toFinset.mpr member
  rw [size] at bounded
  exact ⟨opened, fresh, size, by decide +kernel, bounded⟩

end Change

end ScriptTypes
