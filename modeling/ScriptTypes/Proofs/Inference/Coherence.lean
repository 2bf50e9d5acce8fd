import ScriptTypes.Proofs.Candidates.Table
import ScriptTypes.Proofs.Inference.Consulting
import ScriptTypes.Proofs.Program

/-! A consultation changes nothing but what is remembered, and what it answers is canonical. It
answers as if nothing were remembered, provided that all remembered types are those that would be
derived anew; and it keeps them so. -/

namespace ScriptTypes

open Descriptor (Canonical)

namespace State

@[simp] theorem remember_tables (st : State) (n : NodeId) (d : Descriptor) :
    (st.remember n d).tables = st.tables := rfl

@[simp] theorem remember_events (st : State) (n : NodeId) (d : Descriptor) :
    (st.remember n d).events = st.events := rfl

theorem table_congr {left right : State} (same : left.tables = right.tables) (s : ScopeId) :
    left.table s = right.table s := by
  unfold table
  rw [same]

theorem typeAt_remember (st : State) (n m : NodeId) (d : Descriptor) :
    (st.remember n d).typeAt m =
      if m = n ∧ n < st.types.size then some d else st.typeAt m := by
  unfold remember typeAt
  rw [Array.getElem?_setIfInBounds]
  by_cases same : n = m
  · subst same
    by_cases inside : n < st.types.size <;> simp [inside]
  · simp [same, Ne.symm same]

theorem typeAt_forget (st : State) (n m : NodeId) :
    (st.forget n).typeAt m = if m = n then none else st.typeAt m := by
  unfold forget typeAt
  rw [Array.getElem?_setIfInBounds]
  by_cases same : n = m
  · subst same
    by_cases inside : n < st.types.size <;> simp [inside]
  · simp [same, Ne.symm same]

/-- What can be remembered of a node. -/
def Suits (n : Node) (d : Descriptor) : Prop :=
  Canonical d ∧ ∀ kind, n.form = .statement kind → d = .void

/-- What holds of every state of a run. -/
structure Lawful (p : Program) (st : State) : Prop where
  size : st.tables.size = p.scopes.size
  tables : ∀ t ∈ st.tables, t.Lawful p.names p.settings.maxDepth
  types : ∀ n ∈ p.root.preorder, ∀ d, st.typeAt n.id = some d → Suits n d

def bare (tables : Array TypeTable) : State where
  tables := tables
  types := #[]

@[simp] theorem typeAt_bare (tables : Array TypeTable) (n : NodeId) :
    (bare tables).typeAt n = none := by simp [bare, typeAt]

variable {p : Program} {st : State}

theorem Lawful.table (lawful : st.Lawful p) (s : ScopeId) :
    (st.table s).Lawful p.names p.settings.maxDepth := by
  unfold State.table
  cases found : st.tables[s]? with
  | none => exact .nil
  | some t => exact lawful.tables t (Array.mem_of_getElem? found)

theorem Lawful.bare (lawful : st.Lawful p) : (State.bare st.tables).Lawful p where
  size := lawful.size
  tables := lawful.tables
  types n _ d remembered := by simp at remembered

theorem Lawful.remember (formed : p.WellFormed) (lawful : st.Lawful p) {n : Node} {d : Descriptor}
    (member : n ∈ p.root.preorder) (suits : Suits n d) : (st.remember n.id d).Lawful p where
  size := lawful.size
  tables := lawful.tables
  types m inside e remembered := by
    rw [typeAt_remember] at remembered
    split at remembered
    · next same =>
      cases remembered
      rw [formed.eq_of_id inside member same.1]
      exact suits
    · exact lawful.types m inside e remembered

end State

open State (Suits)

theorem Environment.outcome_nameType (env : Environment) (scope : ScopeId) (field : Option Json)
    (role : Role) (st : State) :
    (env.nameType scope field role).outcome st =
      (if role = .label then .ok .object
        else
          match Name.ofField field with
          | .ok name => .ok ((st.table (env.scopes.home scope name)).resolve name)
          | .error fault => .error (.fault fault), st) := by
  unfold nameType
  split
  · rfl
  · cases Name.ofField field <;> rfl

/-- What a consultation does in a state: it answers as promised and changes only what is
remembered. -/
structure Reads (p : Program) {α : Type} (Q : α → Prop) (m : InferM α) (st : State) : Prop where
  tables : (m.outcome st).2.tables = st.tables
  events : (m.outcome st).2.events = st.events
  size : (m.outcome st).2.types.size = st.types.size
  lawful : (m.outcome st).2.Lawful p
  answer : ∀ a, (m.outcome st).1 = .ok a → Q a
  failure : ∀ f, (m.outcome st).1 = .error f → f.isStall = false

namespace Reads

variable {p : Program} {α β : Type} {P : α → Prop} {Q : β → Prop} {m : InferM α}
  {f : α → InferM β} {st : State}

theorem pure {a : α} (holds : P a) (lawful : st.Lawful p) : Reads p P (Pure.pure a) st where
  tables := rfl
  events := rfl
  size := rfl
  lawful := lawful
  answer b same := by cases same; exact holds
  failure f same := by cases same

theorem throw {failure : Failure} (other : failure.isStall = false) (lawful : st.Lawful p) :
    Reads p P (MonadExcept.throw failure) st where
  tables := rfl
  events := rfl
  size := rfl
  lawful := lawful
  answer b same := by cases same
  failure f same := by cases same; exact other

theorem bind (first : Reads p P m st)
    (next : ∀ a, P a → ∀ st, st.Lawful p → Reads p Q (f a) st) : Reads p Q (m >>= f) st := by
  rcases ran : m.outcome st with ⟨failure | a, middle⟩
  · have whole := InferM.outcome_bind_error (f := f) ran
    constructor <;> rw [whole]
    · simpa [ran] using first.tables
    · simpa [ran] using first.events
    · simpa [ran] using first.size
    · simpa [ran] using first.lawful
    · intro b same
      cases same
    · intro g same
      cases same
      exact first.failure failure (by rw [ran])
  · have whole := InferM.outcome_bind_ok (f := f) ran
    have later := next a (first.answer a (by rw [ran])) middle (by simpa [ran] using first.lawful)
    constructor <;> rw [whole]
    · rw [later.tables]; simpa [ran] using first.tables
    · rw [later.events]; simpa [ran] using first.events
    · rw [later.size]; simpa [ran] using first.size
    · exact later.lawful
    · exact later.answer
    · exact later.failure

theorem mono {R : α → Prop} (reads : Reads p P m st) (weaker : ∀ a, P a → R a) :
    Reads p R m st :=
  { reads with answer := fun a same => weaker a (reads.answer a same) }

theorem bare {tables : Array TypeTable} (reads : Reads p P m (.bare tables)) :
    (m.outcome (.bare tables)).2 = .bare tables := by
  have nothing : ∀ after : State, after.tables = tables → after.types = #[] → after.events = #[] →
      after = .bare tables := by
    rintro ⟨_, _, _⟩ rfl rfl rfl
    rfl
  exact nothing _ reads.tables (Array.eq_empty_of_size_eq_zero reads.size) reads.events

theorem name (lawful : st.Lawful p) (env : Environment) (scope : ScopeId) (field : Option Json)
    (role : Role) : Reads p Canonical (env.nameType scope field role) st := by
  have asked := env.outcome_nameType scope field role st
  constructor <;> rw [asked]
  · exact lawful
  · intro d found
    split at found
    · cases found
      exact .known
    · split at found
      · cases found
        exact (lawful.table _).resolve_canonical _
      · cases found
  · intro f failed
    split at failed
    · cases failed
    · split at failed
      · cases failed
      · cases failed
        rfl

end Reads

section

variable {p : Program} {α : Type} {Q : α → Prop} {m : InferM α}

theorem Node.identifier_or_other (n : Node) :
    (∃ field role, n.form = .identifier field role) ∨
      ∀ field role, n.form ≠ .identifier field role := by
  by_cases identifier : ∃ field role, n.form = .identifier field role
  · exact .inl identifier
  · refine .inr ?_
    intro field role form
    exact identifier ⟨field, role, form⟩

theorem Consults.reads_of_asked {asked : Node → Prop}
    (each : ∀ n, asked n → ∀ st, st.Lawful p → Reads p Canonical (n.typeOf p.toEnvironment) st)
    (consults : Consults Canonical p.toEnvironment asked Q m) : ∀ st, st.Lawful p → Reads p Q m st := by
  induction consults with
  | pure holds =>
    intro st lawful
    exact .pure holds lawful
  | throw other =>
    intro st lawful
    exact .throw other lawful
  | name scope field role weaker =>
    intro st lawful
    exact (Reads.name lawful _ scope field role).mono weaker
  | type member weaker =>
    intro st lawful
    exact (each _ member st lawful).mono weaker
  | bind _ _ first next =>
    intro st lawful
    exact (first st lawful).bind next

theorem outcome_remembering (n : NodeId) (compute : InferM Descriptor) (st : State) :
    (InferM.remembering n compute).outcome st =
      match st.typeAt n with
      | some d => (.ok d, st)
      | none =>
        match compute.outcome st with
        | (.ok d, after) => (.ok d, after.remember n d)
        | (.error failure, after) => (.error failure, after) := by
  unfold InferM.remembering
  rw [InferM.outcome_bind, InferM.outcome_get]
  dsimp only
  cases st.typeAt n with
  | some d => rfl
  | none =>
    dsimp only
    rw [InferM.outcome_bind]
    rcases compute.outcome st with ⟨failure | d, after⟩ <;> rfl

theorem Reads.remembering (formed : p.WellFormed) {n : Node} (member : n ∈ p.root.preorder)
    {compute : InferM Descriptor} {st : State} (lawful : st.Lawful p)
    (reads : Reads p (Suits n) compute st) :
    Reads p (Suits n) (InferM.remembering n.id compute) st := by
  have asked := outcome_remembering n.id compute st
  cases remembered : st.typeAt n.id with
  | some d =>
    rw [remembered] at asked
    constructor <;> rw [asked]
    · exact lawful
    · intro e same
      cases same
      exact lawful.types n member d remembered
    · intro f same
      cases same
  | none =>
    rw [remembered] at asked
    rcases ran : compute.outcome st with ⟨failure | d, after⟩
    · rw [ran] at asked
      have same : (InferM.remembering n.id compute).outcome st = compute.outcome st := by
        rw [asked, ran]
      constructor <;> rw [same]
      · exact reads.tables
      · exact reads.events
      · exact reads.size
      · exact reads.lawful
      · exact reads.answer
      · exact reads.failure
    · rw [ran] at asked
      have suits := reads.answer d (by rw [ran])
      constructor <;> rw [asked]
      · simpa [ran] using reads.tables
      · simpa [ran] using reads.events
      · simpa [ran, State.remember] using reads.size
      · refine State.Lawful.remember formed ?_ member suits
        simpa [ran] using reads.lawful
      · intro e same
        cases same
        exact suits
      · intro f same
        cases same

theorem rule_reads {n : Node} (member : n ∈ p.root.preorder)
    (below : ∀ m ∈ n.descendants, m ∈ p.root.preorder → ∀ st, st.Lawful p →
      Reads p (Suits m) (m.typeOf p.toEnvironment) st) :
    ∀ st, st.Lawful p → Reads p (Suits n) (rule p.toEnvironment n (n.parts p.toEnvironment)) st := by
  intro st lawful
  by_cases statement : ∃ kind, n.form = .statement kind
  · obtain ⟨kind, form⟩ := statement
    have answer : rule p.toEnvironment n (n.parts p.toEnvironment) = pure .void := by
      change n.head.form = _ at form
      simp only [rule, form]
    rw [answer]
    exact .pure ⟨.known, fun _ _ => rfl⟩ lawful
  · have consults : Consults Canonical p.toEnvironment (· ∈ n.descendants) Canonical
        (rule p.toEnvironment n (n.parts p.toEnvironment)) :=
      rule_consults Canonical.ample n n.parts_consult
    have each : ∀ m ∈ n.descendants, ∀ st, st.Lawful p →
        Reads p Canonical (m.typeOf p.toEnvironment) st := by
      intro m inside st lawful
      have deep := Node.preorder_trans (Node.mem_preorder.mpr (.inr inside)) member
      exact (below m inside deep st lawful).mono fun d suits => suits.1
    refine (consults.reads_of_asked each st lawful).mono ?_
    intro d canonical
    exact ⟨canonical, fun kind form => absurd ⟨kind, form⟩ statement⟩

/-- Asking for the type of a node changes only what is remembered. -/
theorem typeOf_reads (formed : p.WellFormed) (n : Node) (member : n ∈ p.root.preorder) :
    ∀ st, st.Lawful p → Reads p (Suits n) (n.typeOf p.toEnvironment) st := by
  induction n using Node.descendants_induction with
  | step n below =>
    intro st lawful
    rcases n.identifier_or_other with ⟨field, role, form⟩ | other
    · rw [Node.typeOf_identifier form]
      refine (Reads.name lawful _ _ _ _).mono ?_
      intro d canonical
      exact ⟨canonical, fun kind other => by rw [form] at other; cases other⟩
    · rw [Node.typeOf_other other]
      exact Reads.remembering formed member lawful (rule_reads member below st lawful)

theorem Consults.reads (formed : p.WellFormed)
    (consults : Consults Canonical p.toEnvironment (· ∈ p.root.preorder) Q m) :
    ∀ st, st.Lawful p → Reads p Q m st := by
  refine consults.reads_of_asked ?_
  intro n member st lawful
  exact (typeOf_reads formed n member st lawful).mono fun d suits => suits.1

end

/-- The type of a node under these tables, when nothing is remembered. -/
def Node.freshType (env : Environment) (tables : Array TypeTable) (n : Node) :
    Except Failure Descriptor := ((n.typeOf env).outcome (.bare tables)).1

/-- What is remembered is what would be derived anew. -/
def State.Coherent (p : Program) (st : State) : Prop :=
  ∀ n ∈ p.root.preorder, ∀ d, st.typeAt n.id = some d →
    n.freshType p.toEnvironment st.tables = .ok d

/-- The computation answers as if nothing were remembered and leaves a coherent state behind. -/
def Renews (p : Program) {α : Type} (m : InferM α) (st : State) : Prop :=
  (m.outcome st).1 = (m.outcome (.bare st.tables)).1 ∧ (m.outcome st).2.Coherent p

section

variable {p : Program} {α : Type} {Q : α → Prop} {m : InferM α}

theorem State.Coherent.remember (formed : p.WellFormed) {st : State} (coherent : st.Coherent p)
    {n : Node} {d : Descriptor} (member : n ∈ p.root.preorder)
    (fresh : n.freshType p.toEnvironment st.tables = .ok d) : (st.remember n.id d).Coherent p := by
  intro m inside e remembered
  rw [State.typeAt_remember] at remembered
  split at remembered
  · next same =>
    cases remembered
    rw [formed.eq_of_id inside member same.1]
    exact fresh
  · exact coherent m inside e remembered

theorem Consults.renews_of_asked {asked : Node → Prop} (formed : p.WellFormed)
    (inside : ∀ n, asked n → n ∈ p.root.preorder)
    (each : ∀ n, asked n → ∀ st, st.Lawful p → st.Coherent p →
      Renews p (n.typeOf p.toEnvironment) st)
    (consults : Consults Canonical p.toEnvironment asked Q m) :
    ∀ st, st.Lawful p → st.Coherent p → Renews p m st := by
  have typed : ∀ n, asked n → ∀ st, st.Lawful p →
      Reads p Canonical (n.typeOf p.toEnvironment) st := by
    intro n member st lawful
    exact (typeOf_reads formed n (inside n member) st lawful).mono fun d suits => suits.1
  induction consults with
  | pure holds =>
    intro st lawful coherent
    exact ⟨rfl, coherent⟩
  | throw other =>
    intro st lawful coherent
    exact ⟨rfl, coherent⟩
  | name scope field role weaker =>
    intro st lawful coherent
    unfold Renews
    rw [Environment.outcome_nameType, Environment.outcome_nameType]
    exact ⟨rfl, coherent⟩
  | type member weaker => exact each _ member
  | @bind α β P Q m f consults _ first next =>
    intro st lawful coherent
    obtain ⟨same, kept⟩ := first st lawful coherent
    have here := consults.reads_of_asked typed st lawful
    have there := consults.reads_of_asked typed _ lawful.bare
    rcases ran : m.outcome st with ⟨failure | a, middle⟩
    · have anew : m.outcome (.bare st.tables) = (.error failure, .bare st.tables) :=
        Prod.ext (by rw [← same, ran]) there.bare
      unfold Renews
      rw [InferM.outcome_bind_error ran, InferM.outcome_bind_error anew]
      exact ⟨rfl, by simpa [ran] using kept⟩
    · have anew : m.outcome (.bare st.tables) = (.ok a, .bare st.tables) :=
        Prod.ext (by rw [← same, ran]) there.bare
      have steady : middle.tables = st.tables := by simpa [ran] using here.tables
      obtain ⟨answer, still⟩ := next a (here.answer a (by rw [ran])) middle
        (by simpa [ran] using here.lawful) (by simpa [ran] using kept)
      unfold Renews
      rw [InferM.outcome_bind_ok ran, InferM.outcome_bind_ok anew, answer, steady]
      exact ⟨rfl, still⟩

/-- A rule that answers as if nothing were remembered does so too when its answer is remembered. -/
theorem Renews.remembering (formed : p.WellFormed) {n : Node} (member : n ∈ p.root.preorder)
    {compute : InferM Descriptor}
    (derives : n.typeOf p.toEnvironment = InferM.remembering n.id compute) {st : State}
    (coherent : st.Coherent p) (reads : Reads p (Suits n) compute st)
    (renews : Renews p compute st) : Renews p (InferM.remembering n.id compute) st := by
  have bare : ((InferM.remembering n.id compute).outcome (.bare st.tables)).1 =
      (compute.outcome st).1 := by
    rw [outcome_remembering, State.typeAt_bare, renews.1]
    dsimp only
    rcases compute.outcome (.bare st.tables) with ⟨failure | d, after⟩ <;> rfl
  have fresh : n.freshType p.toEnvironment st.tables = (compute.outcome st).1 := by
    unfold Node.freshType
    rw [derives, bare]
  unfold Renews
  rw [bare, outcome_remembering]
  cases remembered : st.typeAt n.id with
  | some d =>
    refine ⟨?_, coherent⟩
    rw [← fresh, coherent n member d remembered]
  | none =>
    rcases ran : compute.outcome st with ⟨failure | d, after⟩
    · exact ⟨rfl, by simpa [ran] using renews.2⟩
    · refine ⟨rfl, ?_⟩
      have steady : after.tables = st.tables := by simpa [ran] using reads.tables
      refine State.Coherent.remember formed (by simpa [ran] using renews.2) member ?_
      rw [steady, fresh, ran]

/-- Under coherent memories a node has the type that is derived anew. -/
theorem typeOf_renews (formed : p.WellFormed) (n : Node) (member : n ∈ p.root.preorder) :
    ∀ st, st.Lawful p → st.Coherent p → Renews p (n.typeOf p.toEnvironment) st := by
  induction n using Node.descendants_induction with
  | step n below =>
    intro st lawful coherent
    rcases n.identifier_or_other with ⟨field, role, form⟩ | other
    · rw [Node.typeOf_identifier form]
      unfold Renews
      rw [Environment.outcome_nameType, Environment.outcome_nameType]
      exact ⟨rfl, coherent⟩
    · have deep : ∀ m ∈ n.descendants, m ∈ p.root.preorder := fun m inside =>
        Node.preorder_trans (Node.mem_preorder.mpr (.inr inside)) member
      have consults : Consults Canonical p.toEnvironment (· ∈ n.descendants) Canonical
          (rule p.toEnvironment n (n.parts p.toEnvironment)) :=
        rule_consults Canonical.ample n n.parts_consult
      have reads := rule_reads member (fun m _ => typeOf_reads formed m) st lawful
      have renews := consults.renews_of_asked formed deep
        (fun m inside => below m inside (deep m inside)) st lawful coherent
      have derives := @Node.typeOf_other p.toEnvironment n other
      rw [derives]
      exact Renews.remembering formed member derives coherent reads renews

/-- A consultation answers as if nothing were remembered. -/
theorem Consults.renews (formed : p.WellFormed)
    (consults : Consults Canonical p.toEnvironment (· ∈ p.root.preorder) Q m) :
    ∀ st, st.Lawful p → st.Coherent p → Renews p m st :=
  consults.renews_of_asked formed (fun _ member => member) (typeOf_renews formed)

end

/-- The states differ at most in the events so far and in what is remembered elsewhere. -/
structure State.Alike (seen : Node → Prop) (left right : State) : Prop where
  tables : left.tables = right.tables
  size : left.types.size = right.types.size
  types : ∀ n, seen n → left.typeAt n.id = right.typeAt n.id

namespace State.Alike

variable {seen : Node → Prop} {left right : State}

theorem table (alike : left.Alike seen right) (s : ScopeId) : left.table s = right.table s :=
  table_congr alike.tables s

theorem remember (alike : left.Alike seen right) (n : NodeId) (d : Descriptor) :
    (left.remember n d).Alike seen (right.remember n d) where
  tables := alike.tables
  size := by
    change (left.types.setIfInBounds n _).size = (right.types.setIfInBounds n _).size
    simp [alike.size]
  types m inside := by
    rw [typeAt_remember, typeAt_remember, alike.size, alike.types m inside]

end State.Alike

/-- Two runs answer alike and leave like states behind. -/
def Matched (seen : Node → Prop) {α : Type} (left right : Except Failure α × State) : Prop :=
  left.1 = right.1 ∧ left.2.Alike seen right.2

theorem Matched.bind {seen : Node → Prop} {α β : Type} {m : InferM α} {f : α → InferM β}
    {left right : State} (first : Matched seen (m.outcome left) (m.outcome right))
    (next : ∀ a middle, m.outcome left = (.ok a, middle) → ∀ other, middle.Alike seen other →
      Matched seen ((f a).outcome middle) ((f a).outcome other)) :
    Matched seen ((m >>= f).outcome left) ((m >>= f).outcome right) := by
  obtain ⟨same, alike⟩ := first
  rcases ran : m.outcome left with ⟨failure | a, middle⟩
  · rcases again : m.outcome right with ⟨other, last⟩
    rw [ran, again] at same alike
    cases same
    rw [InferM.outcome_bind_error ran, InferM.outcome_bind_error again]
    exact ⟨rfl, alike⟩
  · rcases again : m.outcome right with ⟨other, last⟩
    rw [ran, again] at same alike
    cases same
    rw [InferM.outcome_bind_ok ran, InferM.outcome_bind_ok again]
    exact next a middle ran last alike

section

variable {p : Program} {seen : Node → Prop}

theorem Consults.matched_of_asked {asked : Node → Prop} (formed : p.WellFormed)
    (inside : ∀ n, asked n → n ∈ p.root.preorder)
    (each : ∀ n, asked n → ∀ left right : State, left.Lawful p → left.Alike seen right →
      Matched seen ((n.typeOf p.toEnvironment).outcome left)
        ((n.typeOf p.toEnvironment).outcome right))
    {α : Type} {Q : α → Prop} {m : InferM α} (consults : Consults Canonical p.toEnvironment asked Q m) :
    ∀ left right : State, left.Lawful p → left.Alike seen right →
      Matched seen (m.outcome left) (m.outcome right) := by
  induction consults with
  | pure holds =>
    intro left right lawful alike
    exact ⟨rfl, alike⟩
  | throw other =>
    intro left right lawful alike
    exact ⟨rfl, alike⟩
  | name scope field role weaker =>
    intro left right lawful alike
    rw [Environment.outcome_nameType, Environment.outcome_nameType]
    refine ⟨?_, alike⟩
    simp only [alike.table]
  | type member weaker => exact each _ member
  | @bind α β P Q m f consults _ first next =>
    intro left right lawful alike
    have typed : ∀ n, asked n → ∀ st, st.Lawful p →
        Reads p Canonical (n.typeOf p.toEnvironment) st := by
      intro n member st lawful
      exact (typeOf_reads formed n (inside n member) st lawful).mono fun d suits => suits.1
    have reads := consults.reads_of_asked typed left lawful
    refine (first left right lawful alike).bind ?_
    intro a middle ran other like
    have still : middle.Lawful p := by simpa [ran] using reads.lawful
    exact next a (reads.answer a (by rw [ran])) middle other still like

theorem typeOf_matched (formed : p.WellFormed) (inside : ∀ n, seen n → n ∈ p.root.preorder)
    (closed : ∀ n, seen n → ∀ m ∈ n.descendants, seen m) (n : Node) (member : seen n) :
    ∀ left right : State, left.Lawful p → left.Alike seen right →
      Matched seen ((n.typeOf p.toEnvironment).outcome left)
        ((n.typeOf p.toEnvironment).outcome right) := by
  induction n using Node.descendants_induction with
  | step n below =>
    intro left right lawful alike
    rcases n.identifier_or_other with ⟨field, role, form⟩ | other
    · rw [Node.typeOf_identifier form, Environment.outcome_nameType, Environment.outcome_nameType]
      refine ⟨?_, alike⟩
      simp only [alike.table]
    · have consults : Consults Canonical p.toEnvironment (· ∈ n.descendants) Canonical
          (rule p.toEnvironment n (n.parts p.toEnvironment)) :=
        rule_consults Canonical.ample n n.parts_consult
      obtain ⟨same, like⟩ := consults.matched_of_asked formed
        (fun m deep => inside m (closed n member m deep))
        (fun m deep => below m deep (closed n member m deep)) left right lawful alike
      rw [Node.typeOf_other other, outcome_remembering, outcome_remembering,
        ← alike.types n member]
      cases left.typeAt n.id with
      | some d => exact ⟨rfl, alike⟩
      | none =>
        dsimp only
        revert same like
        generalize (rule p.toEnvironment n (n.parts p.toEnvironment)).outcome left = first
        generalize (rule p.toEnvironment n (n.parts p.toEnvironment)).outcome right = second
        obtain ⟨answer, after⟩ := first
        obtain ⟨answer', after'⟩ := second
        rintro ⟨rfl⟩ like
        cases answer with
        | error failure => exact ⟨rfl, like⟩
        | ok d => exact ⟨rfl, like.remember n.id d⟩

/-- A consultation does not depend on events, nor on what is remembered of nodes it cannot see. -/
theorem Consults.matched (formed : p.WellFormed) (inside : ∀ n, seen n → n ∈ p.root.preorder)
    (closed : ∀ n, seen n → ∀ m ∈ n.descendants, seen m) {α : Type} {Q : α → Prop} {m : InferM α}
    (consults : Consults Canonical p.toEnvironment seen Q m) :
    ∀ left right : State, left.Lawful p → left.Alike seen right →
      Matched seen (m.outcome left) (m.outcome right) :=
  consults.matched_of_asked formed inside (typeOf_matched formed inside closed)

end

end ScriptTypes
