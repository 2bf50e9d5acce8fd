import ScriptTypes.Proofs.Inference.Settling

/-! As long as all that is remembered is coherent, what a node does to the tables depends on the
tables alone: either it changes them from every such state, or from none, and then it gives the same
answer from all of them and leaves what is remembered coherent. -/

namespace ScriptTypes

open Descriptor (Canonical)

/-- The computation changes no table, answers as if nothing were remembered and keeps what is
remembered coherent. -/
structure Steady (p : Program) {α : Type} (m : InferM α) (st : State) : Prop where
  answer : (m.outcome st).1 = (m.outcome (.bare st.tables)).1
  anew : (m.outcome (.bare st.tables)).2 = .bare st.tables
  tables : (m.outcome st).2.tables = st.tables
  coherent : (m.outcome st).2.Coherent p

namespace Steady

variable {p : Program} {α β : Type} {m : InferM α} {f : α → InferM β} {st : State}

theorem read {P : α → Prop} (formed : p.WellFormed) (lawful : st.Lawful p) (coherent : st.Coherent p)
    (consults : Consults Canonical p.toEnvironment (· ∈ p.root.preorder) P m) : Steady p m st where
  answer := (consults.renews formed st lawful coherent).1
  anew := (consults.reads formed _ lawful.bare).bare
  tables := (consults.reads formed st lawful).tables
  coherent := (consults.renews formed st lawful coherent).2

theorem outcome_anew (steady : Steady p m st) {r : Except Failure α} {after : State}
    (ran : m.outcome st = (r, after)) : m.outcome (.bare st.tables) = (r, .bare st.tables) :=
  Prod.ext (by rw [← steady.answer, ran]) steady.anew

theorem bind_error (steady : Steady p m st) {failure : Failure} {after : State}
    (ran : m.outcome st = (.error failure, after)) : Steady p (m >>= f) st := by
  have whole := InferM.outcome_bind_error (f := f) ran
  have again := InferM.outcome_bind_error (f := f) (steady.outcome_anew ran)
  constructor <;> simp only [whole, again]
  · simpa [ran] using steady.tables
  · simpa [ran] using steady.coherent

theorem bind_ok (steady : Steady p m st) {a : α} {middle : State}
    (ran : m.outcome st = (.ok a, middle)) (next : Steady p (f a) middle) :
    Steady p (m >>= f) st := by
  have tables : middle.tables = st.tables := by simpa [ran] using steady.tables
  have whole := InferM.outcome_bind_ok (f := f) ran
  have again := InferM.outcome_bind_ok (f := f) (steady.outcome_anew ran)
  constructor <;> simp only [whole, again]
  · rw [next.answer, tables]
  · rw [← tables, next.anew]
  · rw [next.tables, tables]
  · exact next.coherent

end Steady

section

variable {p : Program} {α β : Type}

theorem weight_lt_bind {m : InferM α} {f : α → InferM β} {st : State} {least : Nat}
    (heavier : least < p.weight (m.outcome st).2)
    (next : ∀ a middle, m.outcome st = (.ok a, middle) →
      p.weight middle ≤ p.weight ((f a).outcome middle).2) :
    least < p.weight ((m >>= f).outcome st).2 := by
  rcases ran : m.outcome st with ⟨failure | a, middle⟩
  · rw [InferM.outcome_bind_error ran]
    rwa [ran] at heavier
  · rw [InferM.outcome_bind_ok ran]
    rw [ran] at heavier
    exact Nat.lt_of_lt_of_le heavier (next a middle ran)

theorem weight_lt_offer (formed : p.WellFormed) {s : ScopeId} {name : Name} {d : Descriptor}
    (place : p.Records s name) (canonical : Canonical d) {st : State} (lawful : st.Lawful p)
    (accepted : ((liftM (p.scopes.offer s name d) : InferM Bool).outcome st).1 = .ok true) :
    p.weight st < p.weight ((liftM (p.scopes.offer s name d) : InferM Bool).outcome st).2 := by
  obtain ⟨_, learns⟩ := Learns.offer (Q := Tells) formed lawful place canonical fun _ => rfl
  exact learns.heavier (learns.answer true accepted).symm

/-- From a coherent state this is steady, or it makes the tables heavier whatever is remembered. -/
def SteadyOrHeavier (p : Program) (m : InferM α) (st : State) : Prop :=
  Steady p m st ∨ (p.weight st < p.weight (m.outcome st).2 ∧
    p.weight st < p.weight (m.outcome (.bare st.tables)).2)

theorem SteadyOrHeavier.congr {m other : InferM α} {st : State} (known : SteadyOrHeavier p m st)
    (here : other.outcome st = m.outcome st)
    (there : other.outcome (.bare st.tables) = m.outcome (.bare st.tables)) :
    SteadyOrHeavier p other st := by
  rcases known with steady | heavier
  · refine .inl ?_
    constructor <;> simp only [here, there]
    · exact steady.answer
    · exact steady.anew
    · exact steady.tables
    · exact steady.coherent
  · refine .inr ?_
    rw [here, there]
    exact heavier

theorem Steady.bind_or_heavier {m : InferM α} {f : α → InferM β} {st : State}
    (steady : Steady p m st)
    (next : ∀ a middle, m.outcome st = (.ok a, middle) → SteadyOrHeavier p (f a) middle) :
    SteadyOrHeavier p (m >>= f) st := by
  rcases ran : m.outcome st with ⟨failure | a, middle⟩
  · exact .inl (steady.bind_error ran)
  · have tables : middle.tables = st.tables := by simpa [ran] using steady.tables
    have same : p.weight middle = p.weight st := by
      unfold Program.weight
      rw [tables]
    rcases next a middle ran with later | heavier
    · exact .inl (steady.bind_ok ran later)
    · refine .inr ?_
      rw [InferM.outcome_bind_ok ran, InferM.outcome_bind_ok (steady.outcome_anew ran), ← same,
        ← tables]
      exact heavier

theorem offer_steady_or_heavier (formed : p.WellFormed) {s : ScopeId} {name : Name} {d : Descriptor}
    (place : p.Records s name) (canonical : Canonical d) {st : State} (lawful : st.Lawful p)
    (coherent : st.Coherent p) :
    SteadyOrHeavier p (liftM (p.scopes.offer s name d) : InferM Bool) st := by
  have table : (State.bare st.tables).table s = st.table s := rfl
  rcases outcome_offer p.scopes s name d st with ⟨refused, ran⟩ | ⟨after, event, entered, ran⟩
  · rcases outcome_offer p.scopes s name d (.bare st.tables) with ⟨_, again⟩ | ⟨_, _, other, _⟩
    · refine .inl ?_
      constructor <;> simp only [ran, again]
      exact coherent
    · rw [table, refused] at other
      cases other
  · rcases outcome_offer p.scopes s name d (.bare st.tables) with ⟨other, _⟩ | ⟨_, _, _, again⟩
    · rw [table, entered] at other
      cases other
    · exact .inr ⟨weight_lt_offer formed place canonical lawful (by rw [ran]),
        weight_lt_offer formed place canonical lawful.bare (by rw [again])⟩

/-- Teaching changes no table, or it makes the tables heavier from every coherent state. -/
theorem Teaches.steady_or_heavier (formed : p.WellFormed) {Q : α → Bool → Prop} {m : InferM α}
    (teaches : Teaches Canonical p.toEnvironment (· ∈ p.root.preorder) Q m) :
    ∀ st, st.Lawful p → st.Coherent p → SteadyOrHeavier p m st := by
  induction teaches with
  | read consults holds =>
    intro st lawful coherent
    exact .inl (.read formed lawful coherent consults)
  | @offer Q s name d site canonical holds =>
    intro st lawful coherent
    exact offer_steady_or_heavier formed (formed.records_of_site site) canonical lawful coherent
  | @bind α β P Q m f teaches rest first next =>
    intro st lawful coherent
    obtain ⟨accepted, learns⟩ := teaches.learns formed st lawful
    obtain ⟨afresh, relearns⟩ := teaches.learns formed _ lawful.bare
    rcases first st lawful coherent with steady | ⟨here, there⟩
    · refine steady.bind_or_heavier ?_
      intro a middle ran
      exact next a accepted (learns.answer a (by rw [ran])) middle
        (by simpa [ran] using learns.lawful) (by simpa [ran] using steady.coherent)
    -- What comes after cannot make the tables lighter again, whatever its answer.
    · refine .inr ⟨weight_lt_bind here ?_, weight_lt_bind there ?_⟩
      · intro a middle ran
        obtain ⟨_, later⟩ := (rest a accepted (learns.answer a (by rw [ran]))).learns formed middle
          (by simpa [ran] using learns.lawful)
        exact later.weight_le
      · intro a middle ran
        obtain ⟨_, later⟩ := (rest a afresh (relearns.answer a (by rw [ran]))).learns formed middle
          (by simpa [ran] using relearns.lawful)
        exact later.weight_le

end

section

variable {p : Program} {st : State} {node f : Node} {b : Binding} {d : Descriptor}

/-- Overturning a type never leaves the tables as they were. -/
theorem tables_ne_of_overturns (formed : p.WellFormed) (member : node ∈ p.root.preorder)
    (lawful : st.Lawful p) (overturns : p.Overturns st node f b d) :
    ((p.settle node).outcome st).2.tables ≠ st.tables := by
  have place := formed.records_of_recorded overturns.records member
  have changed : ∀ after : State, (after.table (p.homeOf b)).candidates b.name = [] ∨
      (after.table (p.homeOf b)).candidates b.name = [d] → after.tables ≠ st.tables := by
    intro after few same
    rw [State.table_congr same] at few
    obtain ⟨notNone, notOnly, _⟩ := Candidates.ne_of_contradicts overturns.contradicted
    exact few.elim notNone notOnly
  obtain ⟨after, tables, still, _, ⟨_, ran⟩ | ⟨t, event, entered, ran⟩⟩ :=
    outcome_overturned formed member lawful overturns
  · rw [ran]
    refine changed _ (.inl ?_)
    rw [after.table_setTable _ (still.size ▸ place.scope), TypeTable.candidates_erase]
  · rw [ran]
    refine changed _ (.inr ?_)
    obtain ⟨_, _, rfl⟩ := TypeTable.offer?_eq_some entered
    change ((after.setTable (p.homeOf b) _).table (p.homeOf b)).candidates b.name = [d]
    rw [after.table_setTable _ (still.size ▸ place.scope), TypeTable.candidates_erase]
    simp [TypeTable.candidates, Table.get?_put, Candidates.insert]

theorem tables_ne_of_weight_lt {after : State} (heavier : p.weight st < p.weight after) :
    after.tables ≠ st.tables := by
  intro same
  unfold Program.weight at heavier
  rw [same] at heavier
  exact Nat.lt_irrefl _ heavier

theorem Environment.Overturns.anew (formed : p.WellFormed) (member : node ∈ p.root.preorder)
    (lawful : st.Lawful p) (coherent : st.Coherent p) (overturns : p.Overturns st node f b d) :
    p.Overturns (.bare st.tables) node f b d := by
  obtain ⟨inside, _⟩ := mem_of_recorded overturns.records member
  have renews := typeOf_renews formed f inside st lawful coherent
  exact ⟨overturns.records, overturns.last, renews.1 ▸ overturns.derived, overturns.contradicted⟩

theorem record_steady_or_heavier (formed : p.WellFormed) (member : node ∈ p.root.preorder)
    (lawful : st.Lawful p) (coherent : st.Coherent p)
    (records : Environment.recorded? node = some (f, b))
    (holds : ∀ d, ¬ p.Overturns st node f b d) : SteadyOrHeavier p (p.settle node) st := by
  obtain ⟨inside, _⟩ := Environment.mem_of_recorded records member
  rw [Environment.settle_of_recorded records, Environment.recordFunction_eq]
  split
  · next last =>
    have typed : Steady p (f.typeOf p.toEnvironment) st :=
      .read (P := Canonical) formed lawful coherent (.type inside fun _ canonical => canonical)
    have reads := typeOf_reads formed f inside st lawful
    refine typed.bind_or_heavier ?_
    intro d middle ran
    have table : middle.table (p.homeOf b) = st.table (p.homeOf b) :=
      State.table_congr (by simpa [ran] using reads.tables) _
    have agrees : Candidates.contradicts d
        ((middle.table (p.homeOf b)).candidates b.name) = false := by
      rw [table]
      by_contra contradicted
      exact holds d ⟨records, last, by rw [ran], by simpa using contradicted⟩
    have offered := offer_steady_or_heavier formed (formed.records_of_recorded records member)
      (reads.answer d (by rw [ran])).1 (by simpa [ran] using reads.lawful)
      (by simpa [ran] using typed.coherent : middle.Coherent p)
    exact offered.congr (outcome_revise_agreeing p.toEnvironment b d middle agrees)
      (outcome_revise_agreeing p.toEnvironment b d (.bare middle.tables) agrees)
  · exact .inl (.read (P := fun _ => True) formed lawful coherent (.pure trivial))

theorem settle_steady_or_heavier (formed : p.WellFormed) (member : node ∈ p.root.preorder)
    (lawful : st.Lawful p) (coherent : st.Coherent p)
    (holds : ∀ f b d, ¬ p.Overturns st node f b d) : SteadyOrHeavier p (p.settle node) st := by
  cases records : Environment.recorded? node with
  | none =>
    have teaches : Teaches Canonical p.toEnvironment (· ∈ p.root.preorder) Tells (p.settle node) :=
      Environment.settle_teaches Node.preorder_closed Canonical.ample member records
    exact teaches.steady_or_heavier formed st lawful coherent
  | some recorded =>
    exact record_steady_or_heavier formed member lawful coherent records (holds _ _)

/-- A node changes no table and answers as if nothing were remembered, or it changes the tables
whatever is remembered. -/
theorem settle_steady_or_changes (formed : p.WellFormed) (member : node ∈ p.root.preorder)
    (lawful : st.Lawful p) (coherent : st.Coherent p) :
    Steady p (p.settle node) st ∨
      (((p.settle node).outcome st).2.tables ≠ st.tables ∧
        ((p.settle node).outcome (.bare st.tables)).2.tables ≠ st.tables) := by
  by_cases overturns : ∃ f b d, p.Overturns st node f b d
  · obtain ⟨f, b, d, overturns⟩ := overturns
    exact .inr ⟨tables_ne_of_overturns formed member lawful overturns,
      tables_ne_of_overturns formed member lawful.bare
        (overturns.anew formed member lawful coherent)⟩
  · rcases settle_steady_or_heavier formed member lawful coherent
        fun f b d overturned => overturns ⟨f, b, d, overturned⟩ with steady | ⟨here, there⟩
    · exact .inl steady
    · exact .inr ⟨tables_ne_of_weight_lt here, tables_ne_of_weight_lt there⟩

end

section

variable {p : Program} {seen : Node → Prop} {left right : State}

theorem State.Alike.setTable (alike : left.Alike seen right) (s : ScopeId) (t : TypeTable) :
    (left.setTable s t).Alike seen (right.setTable s t) where
  tables := by
    change left.tables.setIfInBounds s t = right.tables.setIfInBounds s t
    rw [alike.tables]
  size := alike.size
  types := alike.types

theorem State.Alike.record (alike : left.Alike seen right) (first second : Event) :
    (left.record first).Alike seen (right.record second) where
  tables := alike.tables
  size := alike.size
  types := alike.types

theorem offer_matched (scopes : Scopes) (s : ScopeId) (name : Name) (d : Descriptor)
    (alike : left.Alike seen right) :
    Matched seen ((liftM (scopes.offer s name d) : InferM Bool).outcome left)
      ((liftM (scopes.offer s name d) : InferM Bool).outcome right) := by
  rcases outcome_offer scopes s name d left with ⟨refused, ran⟩ | ⟨after, event, entered, ran⟩
  · rcases outcome_offer scopes s name d right with ⟨_, again⟩ | ⟨_, _, other, _⟩
    · rw [ran, again]
      exact ⟨rfl, alike⟩
    · rw [← alike.table, refused] at other
      cases other
  · rcases outcome_offer scopes s name d right with ⟨other, _⟩ | ⟨after', event', other, again⟩
    · rw [← alike.table, entered] at other
      cases other
    · rw [← alike.table, entered] at other
      cases other
      rw [ran, again]
      exact ⟨rfl, (alike.setTable s after).record event event'⟩

theorem revise_matched (env : Environment) (b : Binding) (d : Descriptor)
    (alike : left.Alike seen right) :
    Matched seen ((env.revise b d).outcome left) ((env.revise b d).outcome right) := by
  have table := alike.table (env.homeOf b)
  cases verdict : Candidates.contradicts d ((left.table (env.homeOf b)).candidates b.name) with
  | false =>
    rw [outcome_revise_agreeing env b d left verdict,
      outcome_revise_agreeing env b d right (table ▸ verdict)]
    exact offer_matched env.scopes _ b.name d alike
  | true =>
    rcases outcome_revise_contradicting env b d left verdict with
      ⟨deep, ran⟩ | ⟨after, event, entered, ran⟩
    · rcases outcome_revise_contradicting env b d right (table ▸ verdict) with
        ⟨_, again⟩ | ⟨_, _, other, _⟩
      · rw [ran, again, table]
        exact ⟨rfl, alike.setTable _ _⟩
      · exact absurd (TypeTable.offer?_eq_some other).1 deep
    · rcases outcome_revise_contradicting env b d right (table ▸ verdict) with
        ⟨deep, _⟩ | ⟨_, event', other, again⟩
      · exact absurd (TypeTable.offer?_eq_some entered).1 deep
      · rw [← table, entered] at other
        cases other
        rw [ran, again]
        exact ⟨rfl, (alike.setTable _ after).record event event'⟩

theorem Teaches.matched (formed : p.WellFormed) (inside : ∀ n, seen n → n ∈ p.root.preorder)
    (closed : ∀ n, seen n → ∀ m ∈ n.descendants, seen m) {α : Type} {Q : α → Bool → Prop}
    {m : InferM α} (teaches : Teaches Canonical p.toEnvironment seen Q m) :
    ∀ left right : State, left.Lawful p → left.Alike seen right →
      Matched seen (m.outcome left) (m.outcome right) := by
  induction teaches with
  | read consults holds => exact consults.matched formed inside closed
  | offer site canonical holds =>
    intro left right lawful alike
    exact offer_matched _ _ _ _ alike
  | @bind α β P Q m f teaches _ first next =>
    intro left right lawful alike
    obtain ⟨accepted, learns⟩ := (teaches.mono inside).learns formed left lawful
    refine (first left right lawful alike).bind ?_
    intro a middle ran other like
    have still : middle.Lawful p := by simpa [ran] using learns.lawful
    exact next a accepted (learns.answer a (by rw [ran])) middle other still like

/-- What settling a node does depends on the tables and on what is remembered below the root. -/
theorem settle_matched (formed : p.WellFormed) {node : Node} (member : node ∈ p.root.descendants)
    (lawful : left.Lawful p) (alike : left.Alike (· ∈ p.root.descendants) right) :
    Matched (· ∈ p.root.descendants) ((p.settle node).outcome left)
      ((p.settle node).outcome right) := by
  have inside : ∀ n ∈ p.root.descendants, n ∈ p.root.preorder :=
    fun n below => Node.mem_preorder.mpr (.inr below)
  have closed : ∀ n ∈ p.root.descendants, ∀ m ∈ n.descendants, m ∈ p.root.descendants :=
    fun n below m deep => Node.descendants_trans (Node.mem_preorder.mpr (.inr deep)) below
  cases records : Environment.recorded? node with
  | none =>
    have children : ∀ n ∈ p.root.descendants, ∀ c ∈ n.children, c ∈ p.root.descendants :=
      fun n below c child => closed n below c (Node.mem_descendants_of_child child)
    exact (Environment.settle_teaches children Canonical.ample member records).matched formed inside
      closed left right lawful alike
  | some recorded =>
    obtain ⟨f, b⟩ := recorded
    have known := (Environment.mem_of_recorded records node.mem_preorder_self).1
    have below := Node.descendants_trans known member
    rw [Environment.settle_of_recorded records, Environment.recordFunction_eq]
    split
    · refine (typeOf_matched formed inside closed f below left right lawful alike).bind ?_
      intro d middle _ other like
      exact revise_matched p.toEnvironment b d like
    · exact ⟨rfl, alike⟩

end

end ScriptTypes
