import ScriptTypes.Proofs.Candidates.Weight
import ScriptTypes.Proofs.Inference.Coherence
import ScriptTypes.Proofs.Inference.Teaching

/-! A node that teaches makes the tables heavier or leaves them alone, and says which. So does a
node that records a function, unless the derived type contradicts the recorded one: then it takes
the other's place, or, if it is too deep to be recorded, leaves nothing in its place. Either way the
node says whether something was recorded. -/

namespace ScriptTypes

open Descriptor (Canonical)
open State (Suits)

namespace State

variable {p : Program} {st : State}

theorem table_setTable (st : State) {s : ScopeId} (t : TypeTable) (inside : s < st.tables.size) :
    (st.setTable s t).table s = t := by
  simp [setTable, table, inside]

theorem setTable_setTable (st : State) (s : ScopeId) (t u : TypeTable) :
    (st.setTable s t).setTable s u = st.setTable s u := by
  simp [setTable]

theorem Lawful.setTable (lawful : st.Lawful p) (s : ScopeId) {t : TypeTable}
    (fits : t.Lawful p.names p.settings.maxDepth) : (st.setTable s t).Lawful p where
  size := by
    change (st.tables.setIfInBounds s t).size = _
    rw [Array.size_setIfInBounds, lawful.size]
  tables u member := by
    rcases Array.mem_or_eq_of_mem_setIfInBounds member with old | rfl
    · exact lawful.tables u old
    · exact fits
  types := lawful.types

theorem Lawful.record (lawful : st.Lawful p) (event : Event) : (st.record event).Lawful p where
  size := lawful.size
  tables := lawful.tables
  types := lawful.types

theorem weight_lt_setTable {depth : Nat} {s : ScopeId} {t : TypeTable}
    (inside : s < st.tables.size) (heavier : (st.table s).weight depth < t.weight depth) :
    tablesWeight depth st.tables < tablesWeight depth (st.setTable s t).tables := by
  refine tablesWeight_lt_set inside ?_
  unfold table at heavier
  rw [Array.getElem?_eq_getElem inside] at heavier
  exact heavier

end State

/-- An offer is refused and changes nothing, or it enters the table and makes an event. -/
theorem outcome_offer (scopes : Scopes) (s : ScopeId) (name : Name) (d : Descriptor) (st : State) :
    ((st.table s).offer? (scopes.boundOf s) name d = none ∧
      (liftM (scopes.offer s name d) : InferM Bool).outcome st = (.ok false, st)) ∨
    ∃ after event, (st.table s).offer? (scopes.boundOf s) name d = some after ∧
      (liftM (scopes.offer s name d) : InferM Bool).outcome st =
        (.ok true, (st.setTable s after).record event) := by
  rw [InferM.outcome_lift]
  cases offered : (st.table s).offer? (scopes.boundOf s) name d with
  | none =>
    refine .inl ⟨rfl, ?_⟩
    have ran : (scopes.offer s name d).run st = (false, st) := by
      simp only [Scopes.offer, StateT.run_bind, StateT.run_get, pure_bind, offered]
      rfl
    rw [ran]
  | some after =>
    by_cases first : (st.table s).candidates name = []
    · refine .inr ⟨after, .learned (scopes.textOf s) name d, rfl, ?_⟩
      have ran : (scopes.offer s name d).run st =
          (true, (st.setTable s after).record (.learned (scopes.textOf s) name d)) := by
        simp only [Scopes.offer, StateT.run_bind, StateT.run_get, pure_bind, offered, first]
        rfl
      rw [ran]
    · refine .inr ⟨after, .revised (scopes.textOf s) name (after.resolve name), rfl, ?_⟩
      have ran : (scopes.offer s name d).run st =
          (true, (st.setTable s after).record
            (.revised (scopes.textOf s) name (after.resolve name))) := by
        simp only [Scopes.offer, StateT.run_bind, StateT.run_get, pure_bind, offered, first]
        rfl
      rw [ran]

/-- Where a program can record something. -/
structure Program.Records (p : Program) (s : ScopeId) (name : Name) : Prop where
  scope : s < p.scopes.size
  name : name ∈ p.names

namespace Program.WellFormed

variable {p : Program}

theorem records_of_site (formed : p.WellFormed) {s : ScopeId} {name : Name}
    (site : Site p.toEnvironment (· ∈ p.root.preorder) s name) : p.Records s name := by
  obtain ⟨n, field, role, member, form, _, named, rfl⟩ := site
  refine ⟨formed.closed.home_lt (formed.placed n member).scope name, ?_⟩
  refine List.mem_flatMap.mpr ⟨n, member, ?_⟩
  rw [form]
  simp [Form.names, named]

theorem records_of_binding (formed : p.WellFormed) {n : Node} {b : Binding}
    (member : n ∈ p.root.preorder) (bound : b ∈ n.form.bindings) :
    p.Records (p.scopes.home b.scope b.name) b.name := by
  refine ⟨formed.closed.home_lt ((formed.placed n member).bindings b bound) b.name, ?_⟩
  refine List.mem_flatMap.mpr ⟨n, member, ?_⟩
  cases form : n.form with
  | function expression own declarator =>
    rw [form] at bound
    exact List.mem_map.mpr ⟨b, bound, rfl⟩
  | _ => rw [form] at bound; cases bound

theorem boundOf_le (formed : p.WellFormed) {s : ScopeId} {name : Name} (place : p.Records s name) :
    p.scopes.boundOf s ≤ p.settings.maxDepth := Int.le_of_eq (formed.closed.boundOf place.scope)

end Program.WellFormed

noncomputable def Program.weight (p : Program) (st : State) : Nat :=
  tablesWeight p.settings.maxDepth st.tables

/-- What teaching does in a state: it leaves the tables alone or makes them heavier, and its answer
speaks of which. -/
structure Learns (p : Program) {α : Type} (Q : α → Bool → Prop) (m : InferM α) (st : State)
    (accepted : Bool) : Prop where
  lawful : (m.outcome st).2.Lawful p
  size : (m.outcome st).2.types.size = st.types.size
  quiet : accepted = false → (m.outcome st).2.tables = st.tables
  heavier : accepted = true → p.weight st < p.weight (m.outcome st).2
  answer : ∀ a, (m.outcome st).1 = .ok a → Q a accepted
  failure : ∀ f, (m.outcome st).1 = .error f → f.isStall = false

namespace Learns

variable {p : Program} {α β : Type} {P : α → Bool → Prop} {Q : β → Bool → Prop} {m : InferM α}
  {f : α → InferM β} {st : State} {accepted : Bool}

theorem weight_le (learns : Learns p P m st accepted) : p.weight st ≤ p.weight (m.outcome st).2 := by
  cases accepted with
  | true => exact Nat.le_of_lt (learns.heavier rfl)
  | false =>
    unfold Program.weight
    rw [learns.quiet rfl]

theorem congr {other : InferM α} (learns : Learns p P m st accepted)
    (same : other.outcome st = m.outcome st) : Learns p P other st accepted := by
  constructor <;> rw [same]
  · exact learns.lawful
  · exact learns.size
  · exact learns.quiet
  · exact learns.heavier
  · exact learns.answer
  · exact learns.failure

theorem read {R : α → Prop} (reads : Reads p R m st) (holds : ∀ a, R a → P a false) :
    Learns p P m st false where
  lawful := reads.lawful
  size := reads.size
  quiet _ := reads.tables
  heavier impossible := by cases impossible
  answer a same := holds a (reads.answer a same)
  failure := reads.failure

theorem offer {Q : Bool → Bool → Prop} (formed : p.WellFormed) (lawful : st.Lawful p) {s : ScopeId}
    {name : Name} {d : Descriptor} (place : p.Records s name) (canonical : Canonical d)
    (holds : ∀ accepted, Q accepted accepted) :
    ∃ accepted, Learns p Q (liftM (p.scopes.offer s name d)) st accepted := by
  rcases outcome_offer p.scopes s name d st with ⟨_, ran⟩ | ⟨after, event, entered, ran⟩
  · refine ⟨false, ?_⟩
    constructor <;> rw [ran]
    · exact lawful
    · intro _
      rfl
    · intro impossible
      cases impossible
    · intro a same
      cases same
      exact holds false
    · intro f same
      cases same
  · have deep := formed.boundOf_le place
    have table := lawful.table s
    refine ⟨true, ?_⟩
    constructor <;> rw [ran]
    · exact (lawful.setTable s (table.offer? place.name canonical deep entered)).record event
    · rfl
    · intro impossible
      cases impossible
    · intro _
      exact State.weight_lt_setTable (lawful.size ▸ place.scope)
        (TypeTable.weight_lt_of_offer? table canonical deep entered)
    · intro a same
      cases same
      exact holds true
    · intro f same
      cases same

theorem bind (first : Learns p P m st accepted)
    (next : ∀ a middle, m.outcome st = (.ok a, middle) → P a accepted → middle.Lawful p →
      ∃ later, Learns p (fun b later => Q b (accepted || later)) (f a) middle later) :
    ∃ accepted, Learns p Q (m >>= f) st accepted := by
  rcases ran : m.outcome st with ⟨failure | a, middle⟩
  · have whole := InferM.outcome_bind_error (f := f) ran
    refine ⟨accepted, ?_⟩
    constructor <;> rw [whole]
    · simpa [ran] using first.lawful
    · simpa [ran] using first.size
    · simpa [ran] using first.quiet
    · simpa [ran] using first.heavier
    · intro b same
      cases same
    · intro g same
      cases same
      exact first.failure failure (by rw [ran])
  · have whole := InferM.outcome_bind_ok (f := f) ran
    obtain ⟨later, second⟩ := next a middle ran (first.answer a (by rw [ran]))
      (by simpa [ran] using first.lawful)
    refine ⟨accepted || later, ?_⟩
    constructor <;> rw [whole]
    · exact second.lawful
    · rw [second.size]
      simpa [ran] using first.size
    · intro neither
      obtain ⟨before, after⟩ := Bool.or_eq_false_iff.mp neither
      rw [second.quiet after]
      simpa [ran] using first.quiet before
    · intro either
      have start := first.weight_le
      rw [ran] at start
      cases later with
      | true => exact Nat.lt_of_le_of_lt start (second.heavier rfl)
      | false =>
        have grown := first.heavier (by simpa using either)
        rw [ran] at grown
        exact Nat.lt_of_lt_of_le grown second.weight_le
    · exact second.answer
    · exact second.failure

end Learns

/-- Teaching leaves the tables alone or makes them heavier. -/
theorem Teaches.learns {p : Program} (formed : p.WellFormed) {α : Type} {Q : α → Bool → Prop}
    {m : InferM α} (teaches : Teaches Canonical p.toEnvironment (· ∈ p.root.preorder) Q m) :
    ∀ st, st.Lawful p → ∃ accepted, Learns p Q m st accepted := by
  induction teaches with
  | read consults holds =>
    intro st lawful
    exact ⟨false, .read (consults.reads formed st lawful) holds⟩
  | offer site canonical holds =>
    intro st lawful
    exact Learns.offer formed lawful (formed.records_of_site site) canonical holds
  | bind _ _ first next =>
    intro st lawful
    obtain ⟨accepted, learns⟩ := first st lawful
    exact learns.bind fun a middle _ holds => next a accepted holds middle

namespace Environment

def homeOf (env : Environment) (b : Binding) : ScopeId := env.scopes.home b.scope b.name

/-- The last function bound to a binding's name. -/
def lastBound (env : Environment) (b : Binding) : Option NodeId :=
  env.scopes[env.homeOf b]?.bind fun scope => Table.get? scope.functions b.name

/-- Offers a function's type, or puts it in the place of one that it contradicts. -/
def revise (env : Environment) (b : Binding) (d : Descriptor) : InferM Bool := do
  if Candidates.contradicts d (((← get).table (env.homeOf b)).candidates b.name) then
    env.scopes.replace (env.homeOf b) b.name d
  else env.scopes.offer (env.homeOf b) b.name d

theorem recordFunction_eq (env : Environment) (f : Node) (b : Binding) :
    env.recordFunction f b =
      if env.lastBound b = some f.id then f.typeOf env >>= env.revise b else pure false := by
  unfold recordFunction
  by_cases last : env.lastBound b = some f.id
  · rw [if_pos last]
    have same : ¬ (env.scopes[env.scopes.home b.scope b.name]?.bind
        fun scope => Table.get? scope.functions b.name) ≠ some f.id := not_not_intro last
    dsimp only
    rw [if_neg same]
    rfl
  · rw [if_neg last]
    exact if_pos last

end Environment

theorem Candidates.not_only_of_contradicts {t : TypeTable} {name : Name} {d : Descriptor}
    (contradicted : contradicts d (t.candidates name) = true) : ¬ t.IsOnly name d := by
  intro only
  refine (ne_of_contradicts contradicted).2.1 ?_
  unfold TypeTable.candidates
  rw [show Table.get? t name = some [d] from only]
  rfl

/-- A type that contradicts the recorded one takes its place, or only drops it. -/
theorem outcome_revise_contradicting (env : Environment) (b : Binding) (d : Descriptor) (st : State)
    (contradicted : Candidates.contradicts d
      ((st.table (env.homeOf b)).candidates b.name) = true) :
    (¬ TypeTable.Admissible (env.scopes.boundOf (env.homeOf b)) d ∧
      (env.revise b d).outcome st = (.ok false,
        st.setTable (env.homeOf b) (Table.erase b.name (st.table (env.homeOf b))))) ∨
    ∃ after event, TypeTable.offer? (env.scopes.boundOf (env.homeOf b)) b.name d
        (Table.erase b.name (st.table (env.homeOf b))) = some after ∧
      (env.revise b d).outcome st = (.ok true, (st.setTable (env.homeOf b) after).record event) := by
  let s := env.homeOf b
  let cleared := st.setTable s (Table.erase b.name (st.table s))
  have inside : s < st.tables.size := by
    by_contra outside
    have empty : st.table s = [] := by
      unfold State.table
      rw [Array.getElem?_eq_none (Nat.le_of_not_lt outside)]
      rfl
    rw [show st.table (env.homeOf b) = [] from empty] at contradicted
    simp [TypeTable.candidates, Table.get?, Candidates.contradicts, Candidates.sole?] at contradicted
  have table : cleared.table s = Table.erase b.name (st.table s) := st.table_setTable _ inside
  have whole : (env.revise b d).outcome st =
      (liftM (env.scopes.offer s b.name d) : InferM Bool).outcome cleared := by
    have replaced : (env.scopes.replace s b.name d).run st =
        (env.scopes.offer s b.name d).run cleared := by
      unfold Scopes.replace
      rw [StateT.run_bind, StateT.run_get]
      simp only [pure_bind]
      rw [if_neg (Candidates.not_only_of_contradicts contradicted)]
      rfl
    unfold Environment.revise
    rw [InferM.outcome_bind, InferM.outcome_get]
    dsimp only
    rw [if_pos contradicted, InferM.outcome_lift, InferM.outcome_lift, replaced]
  rcases outcome_offer env.scopes s b.name d cleared with ⟨refused, ran⟩ | ⟨after, event, entered, ran⟩
  · refine .inl ⟨?_, whole.trans ran⟩
    intro admissible
    rw [table] at refused
    unfold TypeTable.offer? at refused
    rw [if_pos] at refused
    · cases refused
    · refine ⟨admissible, ?_⟩
      rw [TypeTable.candidates_erase]
      simp [Candidates.Known]
  · refine .inr ⟨after, event, table ▸ entered, ?_⟩
    rw [whole, ran, State.setTable_setTable]

theorem outcome_revise_agreeing (env : Environment) (b : Binding) (d : Descriptor) (st : State)
    (agrees : Candidates.contradicts d
      ((st.table (env.homeOf b)).candidates b.name) = false) :
    (env.revise b d).outcome st =
      (liftM (env.scopes.offer (env.homeOf b) b.name d) : InferM Bool).outcome st := by
  unfold Environment.revise
  rw [InferM.outcome_bind, InferM.outcome_get]
  dsimp only
  rw [if_neg (by rw [agrees]; exact Bool.false_ne_true)]

/-- Settling the node in this state makes the type `d` of a function contradict what is recorded
under the name of its binding. -/
structure Environment.Overturns (env : Environment) (st : State) (node f : Node) (b : Binding)
    (d : Descriptor) : Prop where
  records : recorded? node = some (f, b)
  last : env.lastBound b = some f.id
  derived : ((f.typeOf env).outcome st).1 = .ok d
  contradicted : Candidates.contradicts d ((st.table (env.homeOf b)).candidates b.name) = true

theorem Environment.mem_of_recorded {node f root : Node} {b : Binding}
    (records : recorded? node = some (f, b)) (member : node ∈ root.preorder) :
    f ∈ root.preorder ∧ b ∈ f.form.bindings := by
  unfold recorded? at records
  split at records
  · next own declarator form =>
    obtain ⟨binding, bound, same⟩ := Option.map_eq_some_iff.mp records
    cases same
    refine ⟨member, ?_⟩
    rw [form, bound]
    exact List.mem_append_left _ (List.mem_singleton.mpr rfl)
  · split at records
    · next value held =>
      have child := (Node.child_of_one held).1
      split at records
      · next own declarator form =>
        obtain ⟨binding, bound, same⟩ := Option.map_eq_some_iff.mp records
        cases same
        have below := Node.mem_preorder.mpr (.inr (Node.mem_descendants_of_child child))
        refine ⟨Node.preorder_trans below member, ?_⟩
        rw [form, bound]
        exact List.mem_append_right _ (List.mem_singleton.mpr rfl)
      · cases records
    · cases records
  · cases records

section

variable {p : Program} {st : State} {node f : Node} {b : Binding} {d : Descriptor}

theorem Program.WellFormed.records_of_recorded (formed : p.WellFormed)
    (records : Environment.recorded? node = some (f, b)) (member : node ∈ p.root.preorder) :
    p.Records (p.homeOf b) b.name := by
  obtain ⟨inside, bound⟩ := Environment.mem_of_recorded records member
  exact formed.records_of_binding inside bound

/-- What settling a node that overturns a type does to the tables. -/
theorem outcome_overturned (formed : p.WellFormed) (member : node ∈ p.root.preorder)
    (lawful : st.Lawful p) (overturns : p.Overturns st node f b d) :
    ∃ after : State, (∀ s, after.table s = st.table s) ∧ after.Lawful p ∧
      after.types.size = st.types.size ∧
      ((¬ TypeTable.Admissible (p.scopes.boundOf (p.homeOf b)) d ∧
        (p.settle node).outcome st = (.ok false, after.setTable (p.homeOf b)
          (Table.erase b.name (st.table (p.homeOf b))))) ∨
      ∃ t event, TypeTable.offer? (p.scopes.boundOf (p.homeOf b)) b.name d
          (Table.erase b.name (st.table (p.homeOf b))) = some t ∧
        (p.settle node).outcome st =
          (.ok true, (after.setTable (p.homeOf b) t).record event)) := by
  obtain ⟨inside, _⟩ := Environment.mem_of_recorded overturns.records member
  have reads := typeOf_reads formed f inside st lawful
  have derived := overturns.derived
  rcases ran : (f.typeOf p.toEnvironment).outcome st with ⟨answer, after⟩
  rw [ran] at derived
  cases derived
  have tables : ∀ s, after.table s = st.table s :=
    State.table_congr (by simpa [ran] using reads.tables)
  have whole : (p.settle node).outcome st = (p.revise b d).outcome after := by
    rw [Environment.settle_of_recorded overturns.records, Environment.recordFunction_eq,
      if_pos overturns.last, InferM.outcome_bind_ok ran]
  refine ⟨after, tables, by simpa [ran] using reads.lawful, by simpa [ran] using reads.size, ?_⟩
  rw [whole, ← tables]
  exact outcome_revise_contradicting p.toEnvironment b d after (tables _ ▸ overturns.contradicted)

/-- Unless it overturns a type, a node leaves the tables alone or makes them heavier. -/
theorem settle_learns (formed : p.WellFormed) (member : node ∈ p.root.preorder)
    (lawful : st.Lawful p) (holds : ∀ f b d, ¬ p.Overturns st node f b d) :
    ∃ accepted, Learns p Tells (p.settle node) st accepted := by
  cases records : Environment.recorded? node with
  | none =>
    exact (Environment.settle_teaches Node.preorder_closed Canonical.ample member records).learns
      formed st lawful
  | some recorded =>
    obtain ⟨f, b⟩ := recorded
    obtain ⟨inside, _⟩ := Environment.mem_of_recorded records member
    rw [Environment.settle_of_recorded records, Environment.recordFunction_eq]
    split
    · next last =>
      have reads := typeOf_reads formed f inside st lawful
      refine (Learns.read (P := fun d _ => Suits f d) reads fun d suits => suits).bind ?_
      intro d middle ran suits still
      have tables : middle.table (p.homeOf b) = st.table (p.homeOf b) :=
        State.table_congr (by simpa [ran] using reads.tables) _
      have agrees : Candidates.contradicts d
          ((middle.table (p.homeOf b)).candidates b.name) = false := by
        rw [tables]
        by_contra contradicted
        exact holds f b d ⟨records, last, by rw [ran], by simpa using contradicted⟩
      obtain ⟨later, learns⟩ := Learns.offer (Q := Tells) formed still
        (formed.records_of_recorded records member) suits.1 fun _ => rfl
      exact ⟨later, learns.congr (outcome_revise_agreeing p.toEnvironment b d middle agrees)⟩
    · exact ⟨false, .read (.pure (P := fun a => a = false) rfl lawful) fun a same => same⟩

/-- Whatever it does, settling a node keeps a state lawful, and it never reports the pass limit. -/
structure Keeps (p : Program) {α : Type} (m : InferM α) (st : State) : Prop where
  lawful : (m.outcome st).2.Lawful p
  size : (m.outcome st).2.types.size = st.types.size
  failure : ∀ f, (m.outcome st).1 = .error f → f.isStall = false

theorem settle_keeps (formed : p.WellFormed) (member : node ∈ p.root.preorder)
    (lawful : st.Lawful p) : Keeps p (p.settle node) st := by
  by_cases overturns : ∃ f b d, p.Overturns st node f b d
  · obtain ⟨f, b, d, overturns⟩ := overturns
    obtain ⟨inside, _⟩ := Environment.mem_of_recorded overturns.records member
    have place := formed.records_of_recorded overturns.records member
    have erased := (lawful.table (p.homeOf b)).sublist (Table.erase_sublist b.name _)
    have canonical := ((typeOf_reads formed f inside st lawful).answer d overturns.derived).1
    obtain ⟨after, _, still, size, ⟨_, ran⟩ | ⟨t, event, entered, ran⟩⟩ :=
      outcome_overturned formed member lawful overturns
    · constructor <;> rw [ran]
      · exact still.setTable _ erased
      · exact size
      · intro f same
        cases same
    · constructor <;> rw [ran]
      · exact (still.setTable _ (erased.offer? place.name canonical (formed.boundOf_le place)
          entered)).record event
      · exact size
      · intro f same
        cases same
  · obtain ⟨_, learns⟩ := settle_learns formed member lawful
      fun f b d overturned => overturns ⟨f, b, d, overturned⟩
    exact ⟨learns.lawful, learns.size, learns.failure⟩

end

end ScriptTypes
