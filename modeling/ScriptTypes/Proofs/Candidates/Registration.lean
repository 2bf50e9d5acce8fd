import ScriptTypes.Proofs.Changes
import ScriptTypes.Proofs.Descriptor.Merging

/-! As long as no union is offered, telling more is transitive, and what is known of a name does not
depend on the order in which its types were offered: the candidates are those that none of the
others beats, and they add up to what merging all of them at once gives. -/

namespace ScriptTypes

namespace Descriptor

variable {a b c d : Descriptor}

def unionFree : Descriptor → Bool
  | function result => result.unionFree
  | collection _ element => element.unionFree
  | union _ => false
  | _ => true

theorem Tidy.of_unionFree (plain : d.unionFree = true) : Tidy d := by
  rintro options rfl
  cases plain

theorem Overlooks.unionFree_eq_false (overlooks : Overlooks a b c) : c.unionFree = false := by
  induction overlooks with
  | option => rfl
  | element _ ih => exact ih
  | result _ ih => exact ih

theorem Beats.trans_unionFree (first : a.Beats b) (second : b.Beats c)
    (plain : c.unionFree = true) : a.Beats c := by
  have seen : ¬ Overlooks a b c := by
    intro overlooks
    cases plain.symm.trans overlooks.unionFree_eq_false
  have across := (refines_of_beats first).trans_iff (refines_of_beats second)
  exact (compare_of_refines (across.mpr seen)).1

end Descriptor

namespace Candidates

open TypeTable (Admissible)

variable {bound : Int} {offered cs : List Descriptor} {d e : Descriptor}

theorem Known.insert (known : Known e cs) (plain : e.unionFree = true) (d : Descriptor) :
    Known e (insert d cs) := by
  have newcomer : d ∈ Candidates.insert d cs := mem_insert_iff.mpr (.inl rfl)
  rcases known with listed | ⟨c, listed, less⟩
  · by_cases beats : d.Beats e
    · exact .inr ⟨d, newcomer, Descriptor.compare_less_iff.mpr beats⟩
    · exact .inl (mem_insert_iff.mpr (.inr ⟨listed, beats⟩))
  · by_cases beats : d.Beats c
    · have through := beats.trans_unionFree (Descriptor.compare_less_iff.mp less) plain
      exact .inr ⟨d, newcomer, Descriptor.compare_less_iff.mpr through⟩
    · exact .inr ⟨c, mem_insert_iff.mpr (.inr ⟨listed, beats⟩), less⟩

/-- The candidates are some of what was offered, and tell as much as all of it that is worth
recording. -/
structure Condense (bound : Int) (offered cs : List Descriptor) : Prop
    extends Independent bound cs where
  subset : ∀ c ∈ cs, c ∈ offered
  known : ∀ e ∈ offered, Admissible bound e → Known e cs

namespace Condense

theorem nil : Condense bound [] [] where
  toIndependent := .nil
  subset := by simp
  known := by simp

theorem refused (condense : Condense bound offered cs) (nothing : Admissible bound d → Known d cs) :
    Condense bound (offered ++ [d]) cs where
  toIndependent := condense.toIndependent
  subset c member := List.mem_append_left _ (condense.subset c member)
  known e member admissible := by
    rcases List.mem_append.mp member with before | now
    · exact condense.known e before admissible
    · rw [List.mem_singleton] at now
      exact now ▸ nothing (now ▸ admissible)

theorem inserted (condense : Condense bound offered cs) (plain : ∀ e ∈ offered, e.unionFree = true)
    (admissible : Admissible bound d) (fresh : ¬ Known d cs) :
    Condense bound (offered ++ [d]) (insert d cs) where
  toIndependent := condense.toIndependent.insert admissible fresh
  subset c member := by
    rcases mem_insert member with rfl | old
    · simp
    · exact List.mem_append_left _ (condense.subset c old)
  known e member worth := by
    rcases List.mem_append.mp member with before | now
    · exact (condense.known e before worth).insert (plain e before) d
    · exact .inl (mem_insert_iff.mpr (.inl (List.mem_singleton.mp now)))

/-- The candidates are what is worth recording and not beaten by anything else that is. -/
theorem mem_iff (condense : Condense bound offered cs) (plain : ∀ e ∈ offered, e.unionFree = true)
    (c : Descriptor) :
    c ∈ cs ↔ c ∈ offered ∧ Admissible bound c ∧
      ∀ e ∈ offered, Admissible bound e → c.compare e ≠ .less := by
  constructor
  · intro member
    refine ⟨condense.subset c member, condense.admissible c member, fun e listed worth less => ?_⟩
    have beats : e.Beats c := Descriptor.compare_less_iff.mp less
    have above : ∃ b ∈ cs, b.Beats c := by
      rcases condense.known e listed worth with known | ⟨b, known, weaker⟩
      · exact ⟨e, known, beats⟩
      · exact ⟨b, known, (Descriptor.compare_less_iff.mp weaker).trans_unionFree beats
          (plain c (condense.subset c member))⟩
    obtain ⟨b, known, stronger⟩ := above
    have apart : b ≠ c := by
      rintro rfl
      cases (Descriptor.compare_self b).symm.trans stronger
    cases (condense.incomparable b known c member apart).symm.trans stronger
  · rintro ⟨listed, worth, unbeaten⟩
    rcases condense.known c listed worth with member | ⟨b, member, less⟩
    · exact member
    · exact absurd less (unbeaten b (condense.subset b member) (condense.admissible b member))

/-- Candidates add up to what merging gives of all that is not too deep. -/
theorem resolve_eq_unify (condense : Condense bound offered cs)
    (plain : ∀ e ∈ offered, e.unionFree = true) :
    resolve cs = Descriptor.unify (offered.filter fun d => (d.depth : Int) ≤ bound) := by
  let shallow := offered.filter fun d => (d.depth : Int) ≤ bound
  have listed : ∀ d, d ∈ shallow ↔ d ∈ offered ∧ (d.depth : Int) ≤ bound := by simp [shallow]
  by_cases unknown : ∀ d ∈ shallow, d = .object
  · have none : cs = [] := by
      refine List.eq_nil_iff_forall_not_mem.mpr fun c member => ?_
      obtain ⟨proper, small⟩ := condense.admissible c member
      exact proper (unknown c ((listed c).mpr ⟨condense.subset c member, small⟩))
    have tidy : ∀ d ∈ shallow, Descriptor.Tidy d :=
      fun d member => .of_unionFree (plain d ((listed d).mp member).1)
    rw [none, (Descriptor.unify_eq_object_iff tidy).mpr unknown]
    rfl
  · obtain ⟨telling, member, proper⟩ : ∃ d ∈ shallow, d ≠ .object := by simpa using unknown
    rw [Descriptor.unify_eq_resolve]
    refine resolve_congr condense.distinct (Descriptor.nodup_survivors_eraseDups _) fun c => ?_
    rw [Descriptor.mem_survivors_eraseDups, condense.mem_iff plain]
    constructor
    · rintro ⟨here, worth, unbeaten⟩
      refine ⟨(listed c).mpr ⟨here, worth.2⟩, fun e found less => ?_⟩
      have beats := Descriptor.refines_of_less less
      obtain ⟨there, small⟩ := (listed e).mp found
      exact unbeaten e there ⟨beats.ne_object, small⟩ less
    · intro survives
      obtain ⟨here, small⟩ := (listed c).mp survives.1
      refine ⟨here, ⟨survives.ne_object member proper, small⟩, fun e there worth => ?_⟩
      exact survives.2 e ((listed e).mpr ⟨there, worth.2⟩)

end Condense

end Candidates

namespace TypeTable

open Candidates (Condense)

variable {bound : Int} {name : Name} {t : TypeTable} {offered : List Descriptor}

/-- One more offer keeps the candidates condensed. -/
theorem offer_condense (condense : Condense bound offered (t.candidates name))
    (plain : ∀ e ∈ offered, e.unionFree = true) (d : Descriptor) :
    Condense bound (offered ++ [d]) ((t.offer bound name d).candidates name) := by
  unfold offer
  cases answer : t.offer? bound name d with
  | none =>
    refine condense.refused fun worth => ?_
    rcases offer?_eq_none_iff.mp answer with object | deep | known
    · exact absurd object worth.1
    · have := worth.2
      omega
    · exact known
  | some after =>
    obtain ⟨worth, fresh, rfl⟩ := offer?_eq_some answer
    rw [Option.getD_some, candidates_put, if_pos rfl]
    exact condense.inserted plain worth fresh

theorem offers_condense (condense : Condense bound offered (t.candidates name))
    (ds : List Descriptor) (plain : ∀ e ∈ offered ++ ds, e.unionFree = true) :
    Condense bound (offered ++ ds)
      ((ds.foldl (fun t d => t.offer bound name d) t).candidates name) := by
  induction ds generalizing offered t with
  | nil => simpa using condense
  | cons d ds ih =>
    have step := offer_condense condense (fun e member => plain e (List.mem_append_left _ member)) d
    have run := ih step (by simpa using plain)
    simpa using run

end TypeTable

namespace Change

def offerEach (scopes : Scopes) (s : ScopeId) (name : Name) (ds : List Descriptor) (st : State) :
    State := offerAll scopes s (ds.map fun d => (name, d)) st

variable (scopes : Scopes) {s : ScopeId} {st : State} {name : Name} {ds : List Descriptor}

theorem offerEach_condense (inside : s < st.tables.size)
    (fresh : (st.table s).candidates name = []) (plain : ∀ d ∈ ds, d.unionFree = true) :
    Candidates.Condense (scopes.boundOf s) ds
      (((offerEach scopes s name ds st).table s).candidates name) := by
  unfold offerEach
  rw [offerAll_eq scopes inside, List.foldl_map]
  have none : Candidates.Condense (scopes.boundOf s) [] ((st.table s).candidates name) :=
    fresh.symm ▸ .nil
  exact TypeTable.offers_condense none ds plain

/-- Types without unions that are offered for a fresh name leave as candidates those worth recording
that no other such type beats. The name's type is what merging gives of those that are not too deep,
so it does not depend on their order. -/
theorem offers_unordered (inside : s < st.tables.size)
    (fresh : (st.table s).candidates name = []) (plain : ∀ d ∈ ds, d.unionFree = true) :
    (∀ c, c ∈ ((offerEach scopes s name ds st).table s).candidates name ↔
      c ∈ ds ∧ TypeTable.Admissible (scopes.boundOf s) c ∧
        ∀ e ∈ ds, TypeTable.Admissible (scopes.boundOf s) e → c.compare e ≠ .less) ∧
    ((offerEach scopes s name ds st).table s).resolve name =
      Descriptor.unify (ds.filter fun d => (d.depth : Int) ≤ scopes.boundOf s) ∧
    ∀ es, es.Perm ds → ((offerEach scopes s name es st).table s).resolve name =
      ((offerEach scopes s name ds st).table s).resolve name := by
  have condense := offerEach_condense scopes inside fresh plain
  have merged := condense.resolve_eq_unify plain
  refine ⟨condense.mem_iff plain, merged, fun es perm => ?_⟩
  have others : ∀ e ∈ es, e.unionFree = true := fun e member => plain e (perm.mem_iff.mp member)
  have again := (offerEach_condense scopes inside fresh others).resolve_eq_unify others
  refine again.trans (Eq.trans ?_ merged.symm)
  exact Descriptor.unify_congr fun d => by simp [perm.mem_iff]

/-- Types with what refines them, `object`, and one that nests too deep for the scope. -/
def scattered : List Descriptor :=
  [.int, .array, .function .object, .arrayOf .array, .object, .function .int, .array,
    .arrayOf (.arrayOf (.arrayOf .int))]

theorem scattered_unordered :
    0 < (State.start 1 0).tables.size ∧ (∀ d ∈ scattered, d.unionFree = true) ∧
    ((State.start 1 0).table 0).candidates (.text "x") = [] ∧
    ((offerEach shallowScope 0 (.text "x") scattered (.start 1 0)).table 0).candidates (.text "x") =
      [.int, .arrayOf .array, .function .int] ∧
    ((offerEach shallowScope 0 (.text "x") scattered.reverse (.start 1 0)).table 0).candidates
      (.text "x") = [.arrayOf .array, .function .int, .int] ∧
    ((offerEach shallowScope 0 (.text "x") scattered.reverse (.start 1 0)).table 0).resolve
      (.text "x") = .unify (scattered.filter fun d => (d.depth : Int) ≤ 2) := by
  have opened : 0 < (State.start 1 0).tables.size := by decide
  have plain : ∀ d ∈ scattered, d.unionFree = true := by decide
  have fresh : ((State.start 1 0).table 0).candidates (.text "x") = [] := by decide
  obtain ⟨_, merged, unordered⟩ := offers_unordered shallowScope opened fresh plain
  refine ⟨opened, plain, fresh, by decide +kernel, by decide +kernel, ?_⟩
  exact (unordered _ scattered.reverse_perm).trans merged

end Change

end ScriptTypes
