import Mathlib.Data.List.TakeWhile
import ScriptTypes.Candidates
import ScriptTypes.Proofs.Descriptor.Canonical

/-! What tables look like after an entry is put or erased, and the invariant that every table of a
run keeps: no name stands in it twice, and the candidates of a name are distinct canonical
descriptors of bounded depth. Only finitely many tables satisfy it. -/

namespace ScriptTypes

namespace Table

variable {α : Type}

def keys (t : Table α) : List Name := t.map fun entry => entry.1.key

theorem get?_put (t : Table α) (name other : Name) (a : α) :
    get? (put name a t) other = if other.key = name.key then some a else get? t other := by
  induction t with
  | nil =>
    by_cases same : other.key = name.key
    · simp [put, get?, same]
    · simp [put, get?, same, Ne.symm same]
  | cons entry t ih =>
    simp only [put]
    by_cases taken : entry.1.key = name.key
    · by_cases same : other.key = name.key
      · simp [get?, taken, same]
      · simp [get?, taken, same, Ne.symm same]
    · rw [if_neg taken]
      by_cases found : entry.1.key = other.key
      · have apart : other.key ≠ name.key := fun same => taken (found.trans same)
        simp [get?, found, apart]
      · have skip : ∀ rest : Table α, get? (entry :: rest) other = get? rest other := by
          intro rest
          simp [get?, found]
        rw [skip, skip, ih]

theorem mem_of_get? {t : Table α} {name : Name} {a : α} (found : get? t name = some a) :
    ∃ entry ∈ t, entry.1.key = name.key ∧ entry.2 = a := by
  unfold get? at found
  obtain ⟨entry, first, rfl⟩ := Option.map_eq_some_iff.mp found
  exact ⟨entry, List.mem_of_find?_eq_some first, by simpa using List.find?_some first, rfl⟩

theorem isAmong_names (t : Table α) (name : Name) :
    name.isAmong (names t) = (get? t name).isSome := by
  unfold get? names Name.isAmong
  rw [List.any_map, Option.isSome_map, Bool.eq_iff_iff, List.find?_isSome, List.any_eq_true]
  rfl

theorem isSome_get?_of_mem_names {t : Table α} {name : Name} (listed : name ∈ names t) :
    (get? t name).isSome = true := by
  rw [← isAmong_names]
  exact List.any_eq_true.mpr ⟨name, listed, by simp⟩

theorem mem_put {t : Table α} {name : Name} {a : α} {entry : Name × α}
    (member : entry ∈ put name a t) :
    entry ∈ t ∨ entry.2 = a ∧ (entry.1 = name ∨ ∃ other ∈ t, entry.1 = other.1) := by
  induction t with
  | nil =>
    rw [List.mem_singleton.mp member]
    exact .inr ⟨rfl, .inl rfl⟩
  | cons head t ih =>
    simp only [put] at member
    split at member
    · rcases List.mem_cons.mp member with rfl | member
      · exact .inr ⟨rfl, .inr ⟨head, List.mem_cons_self, rfl⟩⟩
      · exact .inl (List.mem_cons_of_mem _ member)
    · rcases List.mem_cons.mp member with rfl | member
      · exact .inl List.mem_cons_self
      · rcases ih member with old | ⟨value, old | ⟨other, old, same⟩⟩
        · exact .inl (List.mem_cons_of_mem _ old)
        · exact .inr ⟨value, .inl old⟩
        · exact .inr ⟨value, .inr ⟨other, List.mem_cons_of_mem _ old, same⟩⟩

theorem mem_names_put {t : Table α} {name other : Name} {a : α}
    (listed : other ∈ names (put name a t)) : other = name ∨ other ∈ names t := by
  obtain ⟨entry, member, rfl⟩ := List.mem_map.mp listed
  rcases mem_put member with old | ⟨_, same | ⟨old, there, same⟩⟩
  · exact .inr (List.mem_map_of_mem old)
  · exact .inl same
  · exact .inr (same ▸ List.mem_map_of_mem there)

theorem keys_put (t : Table α) (name : Name) (a : α) :
    keys (put name a t) = if name.key ∈ keys t then keys t else keys t ++ [name.key] := by
  induction t with
  | nil => rfl
  | cons entry t ih =>
    simp only [put]
    by_cases taken : entry.1.key = name.key
    · simp [keys, taken]
    · have apart : name.key ≠ entry.1.key := Ne.symm taken
      rw [if_neg taken]
      have later : ∀ rest : Table α, keys (entry :: rest) = entry.1.key :: keys rest := fun _ => rfl
      rw [later, later, ih]
      by_cases listed : name.key ∈ keys t
      · simp [listed]
      · simp [listed, apart]

theorem nodup_keys_put {t : Table α} (name : Name) (a : α) (distinct : (keys t).Nodup) :
    (keys (put name a t)).Nodup := by
  rw [keys_put]
  split
  · exact distinct
  · next fresh => exact distinct.append (List.nodup_singleton _) (by simpa using fresh)

theorem erase_sublist (name : Name) (t : Table α) : (erase name t).Sublist t := List.filter_sublist

theorem get?_erase (name : Name) (t : Table α) : get? (erase name t) name = none := by
  unfold get? erase
  rw [Option.map_eq_none_iff, List.find?_eq_none]
  intro entry member
  simpa using (List.mem_filter.mp member).2

end Table

namespace Candidates

/-- The order aside, an insertion adds the descriptor and drops those it beats. -/
theorem insert_perm (d : Descriptor) (cs : List Descriptor) :
    (insert d cs).Perm (d :: cs.filter fun c => ¬ d.Beats c) := by
  unfold insert
  refine List.perm_middle.trans (.cons d ?_)
  have kept : (cs.takeWhile fun c => ¬ d.Beats c) =
      (cs.takeWhile fun c => ¬ d.Beats c).filter fun c => ¬ d.Beats c := by
    refine (List.filter_eq_self.mpr ?_).symm
    intro c member
    exact List.mem_takeWhile_imp (p := fun c => ¬ d.Beats c) member
  rw [kept, ← List.filter_append, List.takeWhile_append_dropWhile]

theorem mem_insert {c d : Descriptor} {cs : List Descriptor} (member : c ∈ insert d cs) :
    c = d ∨ c ∈ cs := by
  rcases List.mem_cons.mp ((insert_perm d cs).mem_iff.mp member) with same | member
  · exact .inl same
  · exact .inr (List.mem_filter.mp member).1

theorem nodup_insert {d : Descriptor} {cs : List Descriptor} (distinct : cs.Nodup)
    (fresh : ¬ Known d cs) : (insert d cs).Nodup := by
  refine (insert_perm d cs).nodup_iff.mpr (List.nodup_cons.mpr ⟨?_, distinct.filter _⟩)
  intro member
  exact fresh (.inl (List.mem_filter.mp member).1)

theorem ne_of_contradicts {d : Descriptor} {cs : List Descriptor}
    (contradicted : contradicts d cs = true) : cs ≠ [] ∧ cs ≠ [d] ∧ d ≠ .object := by
  unfold contradicts at contradicted
  refine ⟨?_, ?_, ?_⟩
  · rintro rfl
    cases contradicted
  · rintro rfl
    have apart := (Bool.and_eq_true_iff.mp contradicted).2
    unfold Descriptor.compare at apart
    simp at apart
  · rintro rfl
    split at contradicted
    · next c _ =>
      have apart := (Bool.and_eq_true_iff.mp contradicted).2
      unfold Descriptor.compare at apart
      by_cases same : Descriptor.object = c
      · simp [same] at apart
      · simp [same, Ne.symm same] at apart
    · cases contradicted

end Candidates

namespace TypeTable

open Descriptor (Canonical)

/-- What holds of every table of a run over these names, with this bound on the depth. -/
structure Lawful (names : List Name) (depth : Nat) (t : TypeTable) : Prop where
  distinct : (Table.keys t).Nodup
  named : ∀ entry ∈ t, entry.1 ∈ names
  nodup : ∀ entry ∈ t, entry.2.Nodup
  canonical : ∀ entry ∈ t, ∀ d ∈ entry.2, Canonical d
  shallow : ∀ entry ∈ t, ∀ d ∈ entry.2, d.depth ≤ depth

variable {names : List Name} {depth : Nat} {t after : TypeTable} {name : Name} {d : Descriptor}
  {bound : Int}

theorem mem_candidates {c : Descriptor} (member : c ∈ t.candidates name) :
    ∃ entry ∈ t, entry.2 = t.candidates name ∧ c ∈ entry.2 := by
  unfold candidates at member ⊢
  cases found : Table.get? t name with
  | none => rw [found] at member; cases member
  | some cs =>
    rw [found] at member
    obtain ⟨entry, listed, _, rfl⟩ := Table.mem_of_get? found
    exact ⟨entry, listed, rfl, member⟩

theorem candidates_erase : candidates (Table.erase name t) name = [] := by
  rw [candidates, Table.get?_erase]
  rfl

theorem offer?_eq_some (accepted : t.offer? bound name d = some after) :
    Admissible bound d ∧ ¬ Candidates.Known d (t.candidates name) ∧
      after = Table.put name (Candidates.insert d (t.candidates name)) t := by
  unfold offer? at accepted
  dsimp only at accepted
  split at accepted
  · next holds => exact ⟨holds.1, holds.2, (Option.some.inj accepted).symm⟩
  · cases accepted

/-- What adds nothing to the candidates of a name: it is not worth recording, or some candidate tells
as much. -/
def Absorbs (bound : Int) (name : Name) (d : Descriptor) (t : TypeTable) : Prop :=
  d = .object ∨ bound < d.depth ∨ d ∈ t.candidates name ∨
    ∃ c ∈ t.candidates name, d.compare c = .less

/-- A table refuses exactly what it absorbs. -/
theorem offer?_eq_none_iff : t.offer? bound name d = none ↔ t.Absorbs bound name d := by
  unfold offer? Admissible Absorbs
  dsimp only
  constructor
  · intro refused
    split at refused
    · cases refused
    · next fails =>
      by_cases known : Candidates.Known d (t.candidates name)
      · exact .inr (.inr known)
      · by_cases object : d = .object
        · exact .inl object
        · refine .inr (.inl ?_)
          by_contra shallow
          exact fails ⟨⟨object, by omega⟩, known⟩
  · intro absorbed
    refine if_neg ?_
    rintro ⟨⟨proper, shallow⟩, unknown⟩
    rcases absorbed with object | deep | known
    · exact proper object
    · omega
    · exact unknown known

namespace Lawful

theorem nil : Lawful names depth [] where
  distinct := List.nodup_nil
  named := by simp
  nodup := by simp
  canonical := by simp
  shallow := by simp

theorem sublist (lawful : Lawful names depth t) (shorter : after.Sublist t) :
    Lawful names depth after where
  distinct := lawful.distinct.sublist (shorter.map _)
  named entry member := lawful.named entry (shorter.subset member)
  nodup entry member := lawful.nodup entry (shorter.subset member)
  canonical entry member := lawful.canonical entry (shorter.subset member)
  shallow entry member := lawful.shallow entry (shorter.subset member)

theorem candidates_nodup (lawful : Lawful names depth t) (name : Name) :
    (t.candidates name).Nodup := by
  unfold candidates
  cases found : Table.get? t name with
  | none => exact List.nodup_nil
  | some cs =>
    obtain ⟨entry, listed, _, rfl⟩ := Table.mem_of_get? found
    exact lawful.nodup entry listed

theorem candidates_canonical (lawful : Lawful names depth t) :
    ∀ c ∈ t.candidates name, Canonical c := by
  intro c member
  obtain ⟨entry, listed, _, inside⟩ := mem_candidates member
  exact lawful.canonical entry listed c inside

theorem candidates_shallow (lawful : Lawful names depth t) :
    ∀ c ∈ t.candidates name, c.depth ≤ depth := by
  intro c member
  obtain ⟨entry, listed, _, inside⟩ := mem_candidates member
  exact lawful.shallow entry listed c inside

theorem resolve_canonical (lawful : Lawful names depth t) (name : Name) :
    Canonical (t.resolve name) := .resolve lawful.candidates_canonical

theorem offer? (lawful : Lawful names depth t) (member : name ∈ names) (canonical : Canonical d)
    (deep : bound ≤ depth) (accepted : t.offer? bound name d = some after) :
    Lawful names depth after := by
  obtain ⟨admissible, fresh, rfl⟩ := offer?_eq_some accepted
  have shallow : d.depth ≤ depth := by
    have := admissible.2
    omega
  refine ⟨Table.nodup_keys_put name _ lawful.distinct, ?_, ?_, ?_, ?_⟩
  · intro entry listed
    rcases Table.mem_put listed with old | ⟨_, same | ⟨other, old, same⟩⟩
    · exact lawful.named entry old
    · exact same ▸ member
    · exact same ▸ lawful.named other old
  · intro entry listed
    rcases Table.mem_put listed with old | ⟨value, _⟩
    · exact lawful.nodup entry old
    · exact value ▸ Candidates.nodup_insert (lawful.candidates_nodup name) fresh
  · intro entry listed c inside
    rcases Table.mem_put listed with old | ⟨value, _⟩
    · exact lawful.canonical entry old c inside
    · rcases Candidates.mem_insert (value ▸ inside) with rfl | inside
      · exact canonical
      · exact lawful.candidates_canonical c inside
  · intro entry listed c inside
    rcases Table.mem_put listed with old | ⟨value, _⟩
    · exact lawful.shallow entry old c inside
    · rcases Candidates.mem_insert (value ▸ inside) with rfl | inside
      · exact shallow
      · exact lawful.candidates_shallow c inside

end Lawful

theorem finite_lawful (names : List Name) (depth : Nat) :
    {t | Lawful names depth t}.Finite := by
  have lists := Descriptor.finite_nodup (Descriptor.finite_canonical depth)
  have entries := (List.finite_toSet names).prod lists
  refine (Descriptor.finite_nodup entries).subset ?_
  intro t lawful
  refine ⟨List.Nodup.of_map _ lawful.distinct, ?_⟩
  intro entry member
  refine ⟨lawful.named entry member, lawful.nodup entry member, ?_⟩
  intro d inside
  exact ⟨lawful.canonical entry member d inside, lawful.shallow entry member d inside⟩

/-- Over finitely many names and scopes there are finitely many lawful states of the tables. -/
theorem finite_tables (names : List Name) (depth scopes : Nat) :
    {tables : Array TypeTable | tables.size = scopes ∧ ∀ t ∈ tables, Lawful names depth t}.Finite := by
  refine ((Descriptor.finite_lists (finite_lawful names depth) scopes).image Array.mk).subset ?_
  rintro tables ⟨size, lawful⟩
  refine ⟨tables.toList, ⟨by simp [size], ?_⟩, rfl⟩
  intro t member
  exact lawful t (Array.mem_toList_iff.mp member)

end TypeTable

end ScriptTypes
