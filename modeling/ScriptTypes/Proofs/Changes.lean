import ScriptTypes.Proofs.Descriptor.Chains
import ScriptTypes.Proofs.Inference.Settling

/-! The table of a scope changes in three ways: a type is offered for a name, takes the place of all
that is known of a name, or a name is cleared. Whatever is done to a table that was empty at first,
the candidates of each name are distinct, worth recording and incomparable with each other. Offers
lose nothing: what has been a candidate once is a candidate still or is outgrown by one. -/

namespace ScriptTypes

/-- What can be done to the table of a scope. -/
inductive Change where
  | offer (name : Name) (d : Descriptor)
  | replace (name : Name) (d : Descriptor)
  | clear (name : Name)

namespace Change

def run (scopes : Scopes) (s : ScopeId) (st : State) : Change → State
  | offer name d => ((scopes.offer s name d).run st).2
  | replace name d => ((scopes.replace s name d).run st).2
  | clear name => ((Scopes.clear s name).run st).2

def apply (bound : Int) (t : TypeTable) : Change → TypeTable
  | offer name d => t.offer bound name d
  | replace name d =>
    if t.IsOnly name d then t else TypeTable.offer bound name d (Table.erase name t)
  | clear name => Table.erase name t

def runAll (scopes : Scopes) (s : ScopeId) (changes : List Change) (st : State) : State :=
  changes.foldl (run scopes s) st

variable (scopes : Scopes) {s : ScopeId} {st : State}

theorem run_offer (inside : s < st.tables.size) (name : Name) (d : Descriptor) :
    (run scopes s st (.offer name d)).table s = (st.table s).offer (scopes.boundOf s) name d ∧
      (run scopes s st (.offer name d)).tables.size = st.tables.size := by
  have ran : run scopes s st (.offer name d) =
      ((liftM (scopes.offer s name d) : InferM Bool).outcome st).2 := rfl
  unfold TypeTable.offer
  rcases outcome_offer scopes s name d st with ⟨refused, same⟩ | ⟨after, event, entered, changed⟩
  · rw [ran, same, refused]
    exact ⟨rfl, rfl⟩
  · rw [ran, changed, entered]
    exact ⟨st.table_setTable after inside, Array.size_setIfInBounds⟩

theorem run_clear (inside : s < st.tables.size) (name : Name) :
    (run scopes s st (.clear name)).table s = Table.erase name (st.table s) ∧
      (run scopes s st (.clear name)).tables.size = st.tables.size :=
  ⟨st.table_setTable _ inside, Array.size_setIfInBounds⟩

theorem run_replace (name : Name) (d : Descriptor) :
    run scopes s st (.replace name d) =
      if (st.table s).IsOnly name d then st
      else run scopes s (run scopes s st (.clear name)) (.offer name d) := by
  change ((scopes.replace s name d).run st).2 = _
  unfold Scopes.replace
  rw [StateT.run_bind, StateT.run_get]
  simp only [pure_bind]
  split <;> rfl

/-- A change makes of the table of its scope what it says. -/
theorem run_eq_apply (inside : s < st.tables.size) (change : Change) :
    (run scopes s st change).table s = apply (scopes.boundOf s) (st.table s) change ∧
      (run scopes s st change).tables.size = st.tables.size := by
  cases change with
  | offer name d => exact run_offer scopes inside name d
  | clear name => exact run_clear scopes inside name
  | replace name d =>
    rw [run_replace, apply]
    split
    · exact ⟨rfl, rfl⟩
    · obtain ⟨cleared, size⟩ := run_clear scopes inside name
      obtain ⟨offered, kept⟩ := run_offer scopes (size ▸ inside) name d
      exact ⟨by rw [offered, cleared], kept.trans size⟩

theorem runAll_eq_apply (inside : s < st.tables.size) (changes : List Change) :
    (runAll scopes s changes st).table s =
      changes.foldl (apply (scopes.boundOf s)) (st.table s) := by
  induction changes generalizing st with
  | nil => rfl
  | cons change changes ih =>
    obtain ⟨table, size⟩ := run_eq_apply scopes inside change
    rw [List.foldl_cons, ← table]
    exact ih (size ▸ inside)

end Change

namespace Candidates

theorem mem_insert_iff {c d : Descriptor} {cs : List Descriptor} :
    c ∈ insert d cs ↔ c = d ∨ c ∈ cs ∧ ¬ d.Beats c := by
  rw [(insert_perm d cs).mem_iff, List.mem_cons, List.mem_filter]
  simp

/-- The candidates are distinct, all worth recording, and none tells more or less than another. -/
structure Independent (bound : Int) (cs : List Descriptor) : Prop where
  distinct : cs.Nodup
  admissible : ∀ c ∈ cs, TypeTable.Admissible bound c
  incomparable : ∀ a ∈ cs, ∀ b ∈ cs, a ≠ b → a.compare b = .incomparable

variable {bound : Int} {cs : List Descriptor} {d : Descriptor}

theorem Independent.nil : Independent bound [] where
  distinct := List.nodup_nil
  admissible := by simp
  incomparable := by simp

theorem Independent.insert (independent : Independent bound cs)
    (admissible : TypeTable.Admissible bound d) (fresh : ¬ Known d cs) :
    Independent bound (insert d cs) := by
  have unbeaten : ∀ c ∈ cs, ¬ c.Beats d := by
    intro c member beats
    exact fresh (.inr ⟨c, member, Descriptor.compare_less_iff.mpr beats⟩)
  refine ⟨nodup_insert independent.distinct fresh, ?_, ?_⟩
  · intro c member
    rcases mem_insert member with rfl | member
    · exact admissible
    · exact independent.admissible c member
  · intro a left b right apart
    rcases mem_insert_iff.mp left with rfl | ⟨old, stays⟩
    · rcases mem_insert_iff.mp right with rfl | ⟨other, stays⟩
      · exact absurd rfl apart
      · exact Descriptor.compare_incomparable apart (unbeaten b other) stays
    · rcases mem_insert_iff.mp right with rfl | ⟨other, _⟩
      · exact Descriptor.compare_incomparable apart stays (unbeaten a old)
      · exact independent.incomparable a old b other apart

theorem Independent.depth_resolve_le (independent : Independent bound cs) (proper : 0 ≤ bound) :
    ((resolve cs).depth : Int) ≤ bound := by
  have shallow : ∀ c ∈ cs, c.depth ≤ bound.toNat := by
    intro c member
    have := (independent.admissible c member).2
    omega
  have merged : (resolve cs).depth ≤ bound.toNat := by
    unfold resolve
    split
    · exact Nat.zero_le _
    · exact shallow _ (List.mem_singleton.mpr rfl)
    · exact Descriptor.depth_either_le shallow
  omega

theorem Independent.resolve_eq_object (independent : Independent bound cs) (none : bound < 0) :
    resolve cs = .object := by
  cases cs with
  | nil => rfl
  | cons c cs =>
    have := (independent.admissible c List.mem_cons_self).2
    omega

end Candidates

namespace TypeTable

/-- What holds of every table, however it was changed. -/
structure Sound (bound : Int) (t : TypeTable) : Prop where
  distinct : (Table.keys t).Nodup
  nonempty : ∀ entry ∈ t, entry.2 ≠ []
  independent : ∀ entry ∈ t, Candidates.Independent bound entry.2

namespace Sound

variable {bound : Int} {t : TypeTable}

theorem nil : Sound bound [] where
  distinct := List.nodup_nil
  nonempty := by simp
  independent := by simp

theorem candidates (sound : Sound bound t) (name : Name) :
    Candidates.Independent bound (t.candidates name) := by
  unfold TypeTable.candidates
  cases found : Table.get? t name with
  | none => exact .nil
  | some cs =>
    obtain ⟨entry, listed, _, rfl⟩ := Table.mem_of_get? found
    exact sound.independent entry listed

theorem erase (sound : Sound bound t) (name : Name) : Sound bound (Table.erase name t) where
  distinct := sound.distinct.sublist ((Table.erase_sublist name t).map _)
  nonempty entry member := sound.nonempty entry ((Table.erase_sublist name t).subset member)
  independent entry member := sound.independent entry ((Table.erase_sublist name t).subset member)

theorem offer (sound : Sound bound t) (name : Name) (d : Descriptor) :
    Sound bound (t.offer bound name d) := by
  unfold TypeTable.offer
  cases offered : t.offer? bound name d with
  | none => exact sound
  | some after =>
    obtain ⟨admissible, fresh, rfl⟩ := offer?_eq_some offered
    have entered := (sound.candidates name).insert admissible fresh
    refine ⟨Table.nodup_keys_put name _ sound.distinct, ?_, ?_⟩
    · intro entry member
      rcases Table.mem_put member with old | ⟨value, _⟩
      · exact sound.nonempty entry old
      · rw [value]
        exact List.ne_nil_of_mem (Candidates.mem_insert_iff.mpr (.inl rfl))
    · intro entry member
      rcases Table.mem_put member with old | ⟨value, _⟩
      · exact sound.independent entry old
      · exact value ▸ entered

theorem apply (sound : Sound bound t) (change : Change) : Sound bound (change.apply bound t) := by
  cases change with
  | offer name d => exact sound.offer name d
  | clear name => exact sound.erase name
  | replace name d =>
    rw [Change.apply]
    split
    · exact sound
    · exact (sound.erase name).offer name d

theorem applyAll (sound : Sound bound t) (changes : List Change) :
    Sound bound (changes.foldl (Change.apply bound) t) := by
  induction changes generalizing t with
  | nil => exact sound
  | cons change changes ih => exact ih (sound.apply change)

end Sound

end TypeTable

namespace Change

/-- Whatever is done to the table of a fresh scope, it stays sound, and no name has a type that is
deeper than the bound of the scope. A bound below zero admits nothing, which leaves `object`. -/
theorem sound_of_changes (scopes : Scopes) (nodes : Nat) {s : ScopeId} (inside : s < scopes.size)
    (changes : List Change) :
    let table := (runAll scopes s changes (.start scopes.size nodes)).table s
    table.Sound (scopes.boundOf s) ∧
      (0 ≤ scopes.boundOf s → ∀ name, (table.resolve name).depth ≤ scopes.boundOf s) ∧
      (scopes.boundOf s < 0 → ∀ name, table.resolve name = .object) := by
  have opened : s < (State.start scopes.size nodes).tables.size := by
    simpa [State.start] using inside
  have empty : (State.start scopes.size nodes).table s = [] := by
    simp [State.start, State.table, inside]
  rw [runAll_eq_apply scopes opened, empty]
  have sound := (TypeTable.Sound.nil : TypeTable.Sound (scopes.boundOf s) []).applyAll changes
  exact ⟨sound, fun proper name => (sound.candidates name).depth_resolve_le proper,
    fun none name => (sound.candidates name).resolve_eq_object none⟩

def shallowScope : Scopes := #[⟨"Program", [], 2, [], []⟩]

/-- A union gives way to one of its options and that to a refinement, a type that is too deep clears
the name it should take over, and `object` is never recorded. -/
def mixedChanges : List Change := [
  .offer (.text "x") (.unionOf [.array, .string]), .offer (.text "x") .int,
  .offer (.text "x") .array, .offer (.text "x") (.arrayOf .int), .offer (.text "x") .object,
  .offer (.text "y") (.function .int), .replace (.text "y") (.arrayOf (.arrayOf (.arrayOf .int))),
  .offer (.text "z") .bool, .clear (.text "z"), .replace (.text "z") (.function .void)]

theorem mixedChanges_sound : 0 < shallowScope.size ∧
    (runAll shallowScope 0 mixedChanges (.start shallowScope.size 0)).table 0 =
      [(.text "x", [.arrayOf .int, .int]), (.text "z", [.function .void])] ∧
    TypeTable.Sound 2 [(.text "x", [.arrayOf .int, .int]), (.text "z", [.function .void])] ∧
    ∀ name, (TypeTable.resolve [(.text "x", [.arrayOf .int, .int]), (.text "z", [.function .void])]
      name).depth ≤ (2 : Int) := by
  have opened : 0 < shallowScope.size := by decide
  have table : (runAll shallowScope 0 mixedChanges (.start shallowScope.size 0)).table 0 =
      [(.text "x", [.arrayOf .int, .int]), (.text "z", [.function .void])] := by decide +kernel
  obtain ⟨sound, shallow, _⟩ := sound_of_changes shallowScope 0 opened mixedChanges
  rw [table] at sound shallow
  exact ⟨opened, table, sound, shallow (by decide)⟩

end Change

namespace TypeTable

variable {bound : Int} {t : TypeTable} {name : Name} {c : Descriptor}

theorem candidates_put (t : TypeTable) (name other : Name) (cs : List Descriptor) :
    candidates (Table.put name cs t) other =
      if other.key = name.key then cs else t.candidates other := by
  unfold candidates
  rw [Table.get?_put]
  split <;> rfl

theorem candidates_congr {other : Name} (same : other.key = name.key) :
    t.candidates other = t.candidates name := by
  unfold candidates Table.get?
  rw [same]

/-- After an offer a candidate is a candidate still, or what was offered tells more. -/
theorem offer_outgrows (bound : Int) (member : c ∈ t.candidates name) (offered : Name)
    (d : Descriptor) :
    ∃ e ∈ (t.offer bound offered d).candidates name, c.GrowsTo e := by
  unfold offer
  cases accepted : t.offer? bound offered d with
  | none => exact ⟨c, member, .refl c⟩
  | some after =>
    obtain ⟨_, _, rfl⟩ := offer?_eq_some accepted
    rw [Option.getD_some, candidates_put]
    split
    · next same =>
      rw [candidates_congr same] at member
      by_cases beats : d.Beats c
      · exact ⟨d, Candidates.mem_insert_iff.mpr (.inl rfl), .step (.refl c) beats⟩
      · exact ⟨c, Candidates.mem_insert_iff.mpr (.inr ⟨member, beats⟩), .refl c⟩
    · exact ⟨c, member, .refl c⟩

/-- After any number of offers a candidate is a candidate still or is outgrown by one. -/
theorem offers_outgrow (calls : List (Name × Descriptor)) (member : c ∈ t.candidates name) :
    ∃ e ∈ (calls.foldl (fun t call => t.offer bound call.1 call.2) t).candidates name,
      c.GrowsTo e := by
  induction calls generalizing t c with
  | nil => exact ⟨c, member, .refl c⟩
  | cons call calls ih =>
    obtain ⟨middle, known, first⟩ := offer_outgrows bound member call.1 call.2
    obtain ⟨last, listed, second⟩ := ih known
    exact ⟨last, listed, first.trans second⟩

end TypeTable

theorem Candidates.eq_of_sole {cs : List Descriptor} {d : Descriptor} (sole : sole? cs = some d) :
    cs = [d] := by
  unfold sole? at sole
  split at sole
  · cases sole
    rfl
  · cases sole

namespace Change

def offerAll (scopes : Scopes) (s : ScopeId) (calls : List (Name × Descriptor)) (st : State) :
    State := runAll scopes s (calls.map fun call => .offer call.1 call.2) st

theorem offerAll_eq (scopes : Scopes) {s : ScopeId} {st : State} (inside : s < st.tables.size)
    (calls : List (Name × Descriptor)) :
    (offerAll scopes s calls st).table s =
      calls.foldl (fun t call => t.offer (scopes.boundOf s) call.1 call.2) (st.table s) := by
  unfold offerAll
  rw [runAll_eq_apply scopes inside, List.foldl_map]
  rfl

/-- What is a candidate of a name at some point of a sequence of offers is one at every later point
or is outgrown by one. So a name's only type never gives way to one that tells less. -/
theorem candidates_outgrown (scopes : Scopes) {s : ScopeId} {st : State}
    (inside : s < st.tables.size) (earlier later : List (Name × Descriptor)) (name : Name) :
    (∀ c ∈ ((offerAll scopes s earlier st).table s).candidates name,
      ∃ e ∈ ((offerAll scopes s (earlier ++ later) st).table s).candidates name, c.GrowsTo e) ∧
    ∀ d e, Candidates.sole? (((offerAll scopes s earlier st).table s).candidates name) = some d →
      Candidates.sole? (((offerAll scopes s (earlier ++ later) st).table s).candidates name) =
        some e → e.compare d ≠ .less := by
  have outgrown : ∀ c ∈ ((offerAll scopes s earlier st).table s).candidates name,
      ∃ e ∈ ((offerAll scopes s (earlier ++ later) st).table s).candidates name, c.GrowsTo e := by
    intro c member
    rw [offerAll_eq scopes inside] at member ⊢
    rw [List.foldl_append]
    exact TypeTable.offers_outgrow later member
  refine ⟨outgrown, ?_⟩
  intro d e before after
  obtain ⟨last, listed, grows⟩ := outgrown d (by rw [Candidates.eq_of_sole before]; simp)
  rw [Candidates.eq_of_sole after, List.mem_singleton] at listed
  exact listed ▸ grows.not_less

theorem union_outgrown :
    let union := Descriptor.unionOf [.array, .int]
    let earlier := [(Name.text "x", union)]
    let later := [(Name.text "x", .array), (.text "y", union), (.text "x", .arrayOf .int)]
    0 < (State.start 1 0).tables.size ∧
      ((offerAll shallowScope 0 earlier (.start 1 0)).table 0).candidates (.text "x") = [union] ∧
      ((offerAll shallowScope 0 (earlier ++ later) (.start 1 0)).table 0).candidates (.text "x") =
        [.arrayOf .int] ∧
      (Descriptor.arrayOf .int).compare union = .incomparable ∧ union.GrowsTo (.arrayOf .int) := by
  intro union earlier later
  have opened : 0 < (State.start 1 0).tables.size := by decide
  have before : ((offerAll shallowScope 0 earlier (.start 1 0)).table 0).candidates (.text "x") =
      [union] := by decide +kernel
  have after : ((offerAll shallowScope 0 (earlier ++ later) (.start 1 0)).table 0).candidates
      (.text "x") = [.arrayOf .int] := by decide +kernel
  obtain ⟨e, listed, grows⟩ := (candidates_outgrown shallowScope opened earlier later
    (.text "x")).1 union (by rw [before]; exact List.mem_singleton.mpr rfl)
  rw [after, List.mem_singleton] at listed
  exact ⟨opened, before, after, by decide +kernel, listed ▸ grows⟩

end Change

end ScriptTypes
