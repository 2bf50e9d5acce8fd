import ScriptTypes.Proofs.Inference.Settling

/-! Two states are twins if their tables hold the same candidates in the same order under names that
a renaming maps to each other. Two computations are in step if from twin states they answer alike,
or fail for the same cause, and lead to twin states. What inference is made of keeps in step: this
module has the parts that no syntax tree is needed for. -/

namespace ScriptTypes

/-- A map of names that keeps different names apart and does not touch the name of the array
constructor, which `new` goes by. -/
structure Renaming where
  apply : Name → Name
  key_eq_iff : ∀ a b, (apply a).key = (apply b).key ↔ a.key = b.key
  array : apply (.text "Array") = .text "Array"

instance : CoeFun Renaming fun _ => Name → Name := ⟨Renaming.apply⟩

variable {r : Renaming}

/-- Texts are told apart from all other names. -/
theorem Name.key_eq_text_iff {name : Name} {s : String} : name.key = .text s ↔ name = .text s := by
  cases name with
  | double x =>
    simp only [key]
    split <;> simp
  | _ => simp [key]

theorem Renaming.eq_array_iff (r : Renaming) (name : Name) :
    r name = .text "Array" ↔ name = .text "Array" := by
  constructor
  · intro same
    apply Name.key_eq_text_iff.mp
    change name.key = (Name.text "Array").key
    rw [← r.key_eq_iff, same, r.array]
  · rintro rfl
    exact r.array

namespace Table

variable {α : Type}

def rename (r : Renaming) (t : Table α) : Table α := t.map fun entry => (r entry.1, entry.2)

@[simp] theorem get?_rename (t : Table α) (name : Name) : get? (rename r t) (r name) = get? t name := by
  induction t with
  | nil => rfl
  | cons entry t ih =>
    unfold get? rename at ih ⊢
    by_cases same : entry.1.key = name.key
    · simp [r.key_eq_iff, same]
    · simpa [r.key_eq_iff, same] using ih

@[simp] theorem put_rename (name : Name) (a : α) (t : Table α) :
    put (r name) a (rename r t) = rename r (put name a t) := by
  induction t with
  | nil => rfl
  | cons entry t ih =>
    unfold rename at ih ⊢
    by_cases same : entry.1.key = name.key
    · simp [put, r.key_eq_iff, same]
    · simpa [put, r.key_eq_iff, same] using ih

@[simp] theorem erase_rename (name : Name) (t : Table α) :
    erase (r name) (rename r t) = rename r (erase name t) := by
  simp [erase, rename, List.filter_map, Function.comp_def, r.key_eq_iff]

end Table

namespace TypeTable

@[simp] theorem candidates_rename (t : TypeTable) (name : Name) :
    TypeTable.candidates (t.rename r) (r name) = t.candidates name := by
  simp [candidates]

@[simp] theorem resolve_rename (t : TypeTable) (name : Name) :
    TypeTable.resolve (t.rename r) (r name) = t.resolve name := by
  simp [resolve]

theorem offer?_rename (bound : Int) (name : Name) (d : Descriptor) (t : TypeTable) :
    TypeTable.offer? bound (r name) d (t.rename r) =
      (t.offer? bound name d).map (Table.rename r) := by
  unfold offer?
  simp only [candidates_rename, Table.put_rename]
  split <;> rfl

@[simp] theorem isOnly_rename (t : TypeTable) (name : Name) (d : Descriptor) :
    TypeTable.IsOnly (r name) d (t.rename r) ↔ t.IsOnly name d := by
  simp [IsOnly]

end TypeTable

/-- The scopes stand in the same place and declare and bind the same nodes. How their owners show
themselves is left open. -/
structure Scope.Twin (r : Renaming) (left right : Scope) : Prop where
  outer : right.outer = left.outer
  bound : right.depthBound = left.depthBound
  declared : right.declared = left.declared.rename r
  functions : right.functions = left.functions.rename r

def Scopes.Twin (r : Renaming) (left right : Scopes) : Prop :=
  ∀ s : ScopeId, Option.Rel (Scope.Twin r) left[s]? right[s]?

namespace Scopes.Twin

variable {left right : Scopes}

theorem found (twin : left.Twin r right) (s : ScopeId) :
    left[s]? = none ∧ right[s]? = none ∨
      ∃ scope scope', left[s]? = some scope ∧ right[s]? = some scope' ∧ scope.Twin r scope' := by
  have here := twin s
  generalize left[s]? = found at here
  generalize right[s]? = found' at here
  cases here with
  | none => exact .inl ⟨rfl, rfl⟩
  | some scope => exact .inr ⟨_, _, rfl, rfl, scope⟩

theorem chain (twin : left.Twin r right) (s : ScopeId) : right.chain s = left.chain s := by
  rcases twin.found s with ⟨here, there⟩ | ⟨scope, scope', here, there, same⟩
  · simp [Scopes.chain, here, there]
  · simp [Scopes.chain, here, there, same.outer]

theorem declares (twin : left.Twin r right) (name : Name) (s : ScopeId) :
    right.declares (r name) s = left.declares name s := by
  rcases twin.found s with ⟨here, there⟩ | ⟨scope, scope', here, there, same⟩
  · simp [Scopes.declares, here, there]
  · simp [Scopes.declares, Scope.declares, here, there, same.declared]

theorem home (twin : left.Twin r right) (s : ScopeId) (name : Name) :
    right.home s (r name) = left.home s name := by
  have declares : right.declares (r name) = left.declares name := funext (twin.declares name)
  simp only [Scopes.home, outermost, twin.chain, declares]

theorem boundOf (twin : left.Twin r right) (s : ScopeId) : right.boundOf s = left.boundOf s := by
  rcases twin.found s with ⟨here, there⟩ | ⟨scope, scope', here, there, same⟩
  · simp [Scopes.boundOf, here, there]
  · simp [Scopes.boundOf, here, there, same.bound]

theorem lastFunction (twin : left.Twin r right) (s : ScopeId) (name : Name) :
    (right[s]?.bind fun scope => Table.get? scope.functions (r name)) =
      left[s]?.bind fun scope => Table.get? scope.functions name := by
  rcases twin.found s with ⟨here, there⟩ | ⟨scope, scope', here, there, same⟩
  · simp [here, there]
  · simp [here, there, same.functions]

end Scopes.Twin

structure Environment.Twin (r : Renaming) (left right : Environment) : Prop where
  settings : right.settings = left.settings
  scopes : left.scopes.Twin r right.scopes

namespace Failure

/-- What a failure reports, apart from the node that it reports on. -/
def cause : Failure → Fault ⊕ Problem
  | report r => .inr r.problem
  | fault f => .inl f

theorem cause_about {problem : Problem} {raw : Json} {location : Option Location}
    (located : Location.ofJson raw = .ok location) : (about problem raw).cause = .inr problem := by
  simp [about, Report.about, located, Except.map, cause]

end Failure

/-- Related answers, or failures for the same cause. -/
inductive SameAnswer {α β : Type} (R : α → β → Prop) :
    Except Failure α → Except Failure β → Prop where
  | ok {a : α} {b : β} : R a b → SameAnswer R (.ok a) (.ok b)
  | error {f g : Failure} : f.cause = g.cause → SameAnswer R (.error f) (.error g)

structure State.Twin (r : Renaming) (left right : State) : Prop where
  tables : right.tables = left.tables.map (Table.rename r)
  types : right.types = left.types

namespace State.Twin

variable {left right : State}

theorem table (twin : left.Twin r right) (s : ScopeId) :
    right.table s = (left.table s).rename r := by
  unfold State.table
  rw [twin.tables, Array.getElem?_map]
  cases left.tables[s]? <;> rfl

theorem typeAt (twin : left.Twin r right) (n : NodeId) : right.typeAt n = left.typeAt n := by
  unfold State.typeAt
  rw [twin.types]

theorem setTable (twin : left.Twin r right) (s : ScopeId) (t : TypeTable) :
    (left.setTable s t).Twin r (right.setTable s (t.rename r)) where
  tables := by simp [State.setTable, twin.tables, Array.map_setIfInBounds]
  types := twin.types

theorem record (twin : left.Twin r right) (event other : Event) :
    (left.record event).Twin r (right.record other) := ⟨twin.tables, twin.types⟩

theorem remember (twin : left.Twin r right) (n : NodeId) (d : Descriptor) :
    (left.remember n d).Twin r (right.remember n d) := by
  refine ⟨twin.tables, ?_⟩
  simp [State.remember, twin.types]

theorem forget (twin : left.Twin r right) (n : NodeId) :
    (left.forget n).Twin r (right.forget n) := by
  refine ⟨twin.tables, ?_⟩
  simp [State.forget, twin.types]

end State.Twin

/-- The two computations answer alike from twin states and lead to twin states. -/
def InStep (r : Renaming) {α β : Type} (R : α → β → Prop) (m : InferM α) (m' : InferM β) : Prop :=
  ∀ left right : State, left.Twin r right →
    SameAnswer R (m.outcome left).1 (m'.outcome right).1 ∧
      (m.outcome left).2.Twin r (m'.outcome right).2

namespace InStep

variable {α α' β β' : Type} {R : α → α' → Prop} {S : β → β' → Prop} {m : InferM α} {m' : InferM α'}
  {f : α → InferM β} {f' : α' → InferM β'}

theorem pure {a : α} {a' : α'} (related : R a a') : InStep r R (Pure.pure a) (Pure.pure a') :=
  fun _ _ twin => ⟨.ok related, twin⟩

theorem throw {failure other : Failure} (same : failure.cause = other.cause) :
    InStep r R (throwThe Failure failure) (throwThe Failure other) :=
  fun _ _ twin => ⟨.error same, twin⟩

theorem fault (f : Fault) : InStep r R (InferM.fault f) (InferM.fault f) := throw rfl

theorem bind (first : InStep r R m m') (next : ∀ a a', R a a' → InStep r S (f a) (f' a')) :
    InStep r S (m >>= f) (m' >>= f') := by
  intro left right twin
  obtain ⟨answer, later⟩ := first left right twin
  rcases ran : m.outcome left with ⟨_ | a, middle⟩ <;>
    rcases ran' : m'.outcome right with ⟨_ | a', middle'⟩ <;> rw [ran, ran'] at answer later
  · rw [InferM.outcome_bind_error ran, InferM.outcome_bind_error ran']
    cases answer with
    | error same => exact ⟨.error same, later⟩
  · cases answer
  · cases answer
  · rw [InferM.outcome_bind_ok ran, InferM.outcome_bind_ok ran']
    cases answer with
    | ok related => exact next a a' related middle middle' later

/-- What follows equal answers. -/
theorem andThen {n n' : InferM α} {g : α → InferM β} {g' : α → InferM β'} (first : InStep r Eq n n')
    (next : ∀ a, InStep r S (g a) (g' a)) : InStep r S (n >>= g) (n' >>= g') := by
  apply first.bind
  rintro a _ rfl
  exact next a

theorem ite {condition : Prop} [Decidable condition] {n : InferM α} {n' : InferM α'}
    (first : InStep r R m m') (second : InStep r R n n') :
    InStep r R (if condition then m else n) (if condition then m' else n') := by
  split
  · exact first
  · exact second

theorem choose {condition : Prop} [Decidable condition] {n n' : InferM Bool} {g : Bool → InferM β}
    {g' : Bool → InferM β'} (told : InStep r Eq n n') (next : ∀ answer, InStep r S (g answer) (g' answer)) :
    InStep r S (if condition then n >>= g else Pure.pure false >>= g)
      (if condition then n' >>= g' else Pure.pure false >>= g') :=
  ite (told.andThen next) ((pure rfl).andThen next)

theorem ofFault (answer : Except Fault α) :
    InStep r Eq (InferM.ofFault answer) (InferM.ofFault answer) := by
  cases answer with
  | ok a => exact pure rfl
  | error f => exact fault f

theorem inTurn {ms : List (InferM α)} {ms' : List (InferM α)}
    (each : List.Forall₂ (InStep r Eq) ms ms') :
    InStep r Eq (InferM.inTurn ms) (InferM.inTurn ms') := by
  induction each with
  | nil => exact pure rfl
  | cons head _ ih =>
    apply head.andThen
    intro a
    apply ih.andThen
    intro as
    exact pure rfl

theorem modify {change change' : State → State}
    (kept : ∀ left right : State, left.Twin r right → (change left).Twin r (change' right)) :
    InStep r Eq (modify change : InferM PUnit) (modify change') :=
  fun left right twin => ⟨.ok rfl, kept left right twin⟩

theorem remembering (id : NodeId) {compute compute' : InferM Descriptor}
    (derived : InStep r Eq compute compute') :
    InStep r Eq (InferM.remembering id compute) (InferM.remembering id compute') := by
  intro left right twin
  obtain ⟨answer, later⟩ := derived left right twin
  rw [outcome_remembering, outcome_remembering, twin.typeAt]
  cases left.typeAt id with
  | some d => exact ⟨.ok rfl, twin⟩
  | none =>
    rcases ran : compute.outcome left with ⟨_ | d, middle⟩ <;>
      rcases ran' : compute'.outcome right with ⟨_ | d', middle'⟩ <;> rw [ran, ran'] at answer later
    · cases answer with
      | error same => exact ⟨.error same, later⟩
    · cases answer
    · cases answer
    · cases answer with
      | ok same => exact same ▸ ⟨.ok rfl, later.remember id d⟩

end InStep

def Binding.rename (r : Renaming) (b : Binding) : Binding := { b with name := r b.name }

namespace Environment.Twin

variable {env env' : Environment}

theorem nameType (twin : env.Twin r env') (scope : ScopeId) {field field' : Option Json} {role : Role}
    (named : role ≠ .label → Name.ofField field' = (Name.ofField field).map r) :
    InStep r Eq (env.nameType scope field role) (env'.nameType scope field' role) := by
  intro left right states
  rw [outcome_nameType, outcome_nameType]
  by_cases label : role = .label
  · rw [if_pos label, if_pos label]
    exact ⟨.ok rfl, states⟩
  · rw [if_neg label, if_neg label, named label]
    cases Name.ofField field with
    | error f => exact ⟨.error rfl, states⟩
    | ok name =>
      refine ⟨.ok ?_, states⟩
      rw [twin.scopes.home, states.table, TypeTable.resolve_rename]

theorem offer (twin : env.Twin r env') (s : ScopeId) (name : Name) (d : Descriptor) :
    InStep r Eq (liftM (env.scopes.offer s name d)) (liftM (env'.scopes.offer s (r name) d)) := by
  intro left right states
  have renamed : (right.table s).offer? (env'.scopes.boundOf s) (r name) d =
      ((left.table s).offer? (env.scopes.boundOf s) name d).map (Table.rename r) := by
    rw [states.table, twin.scopes.boundOf, TypeTable.offer?_rename]
  rcases outcome_offer env.scopes s name d left with ⟨refused, ran⟩ | ⟨after, event, entered, ran⟩ <;>
    rcases outcome_offer env'.scopes s (r name) d right with
      ⟨refused', ran'⟩ | ⟨after', event', entered', ran'⟩ <;> rw [ran, ran']
  · exact ⟨.ok rfl, states⟩
  · rw [refused, entered'] at renamed
    cases renamed
  · rw [entered, refused'] at renamed
    cases renamed
  · rw [entered, entered'] at renamed
    cases renamed
    exact ⟨.ok rfl, (states.setTable s after).record event event'⟩

theorem hintName (twin : env.Twin r env') (scope : ScopeId) {field field' : Option Json} {role : Role}
    (named : role ≠ .label → Name.ofField field' = (Name.ofField field).map r) (d : Descriptor) :
    InStep r Eq (env.hintName scope field role d) (env'.hintName scope field' role d) := by
  unfold Environment.hintName
  by_cases label : role = .label
  · rw [if_pos label, if_pos label]
    exact .pure rfl
  · rw [if_neg label, if_neg label, named label]
    cases Name.ofField field with
    | error f => exact .fault f
    | ok name =>
      have same := twin.scopes.home scope name
      change InStep r Eq (liftM (env.scopes.offer _ name d)) (liftM (env'.scopes.offer _ (r name) d))
      rw [same]
      exact twin.offer _ name d

theorem homeOf (twin : env.Twin r env') (b : Binding) : env'.homeOf (b.rename r) = env.homeOf b :=
  twin.scopes.home b.scope b.name

theorem lastBound (twin : env.Twin r env') (b : Binding) :
    env'.lastBound (b.rename r) = env.lastBound b := by
  unfold Environment.lastBound
  rw [twin.homeOf]
  exact twin.scopes.lastFunction _ b.name

/-- The offer that a function's type makes to the table, once its name is cleared there. -/
theorem offer?_erased (twin : env.Twin r env') (b : Binding) (d : Descriptor) {left right : State}
    (states : left.Twin r right) :
    TypeTable.offer? (env'.scopes.boundOf (env.homeOf b)) (r b.name) d
        (Table.erase (r b.name) (right.table (env.homeOf b))) =
      (TypeTable.offer? (env.scopes.boundOf (env.homeOf b)) b.name d
        (Table.erase b.name (left.table (env.homeOf b)))).map (Table.rename r) := by
  rw [states.table, Table.erase_rename, twin.scopes.boundOf, TypeTable.offer?_rename]

theorem revise (twin : env.Twin r env') (b : Binding) (d : Descriptor) :
    InStep r Eq (env.revise b d) (env'.revise (b.rename r) d) := by
  intro left right states
  have home := twin.homeOf b
  have candidates : (right.table (env'.homeOf (b.rename r))).candidates (b.rename r).name =
      (left.table (env.homeOf b)).candidates b.name := by
    rw [home, states.table]
    exact TypeTable.candidates_rename _ b.name
  have offered := twin.offer?_erased b d states
  cases verdict : Candidates.contradicts d ((left.table (env.homeOf b)).candidates b.name) with
  | false =>
    have verdict' := candidates ▸ verdict
    rw [outcome_revise_agreeing env b d left verdict,
      outcome_revise_agreeing env' (b.rename r) d right verdict', home]
    exact twin.offer _ b.name d left right states
  | true =>
    have verdict' := candidates ▸ verdict
    rcases outcome_revise_contradicting env b d left verdict with
        ⟨deep, ran⟩ | ⟨after, event, entered, ran⟩ <;>
      rcases outcome_revise_contradicting env' (b.rename r) d right verdict' with
        ⟨deep', ran'⟩ | ⟨after', event', entered', ran'⟩ <;> rw [ran, ran', home]
    · refine ⟨.ok rfl, ?_⟩
      have cleared := states.setTable (env.homeOf b)
        (Table.erase b.name (left.table (env.homeOf b)))
      rw [← Table.erase_rename, ← states.table] at cleared
      exact cleared
    · rw [home, show (b.rename r).name = r b.name from rfl, offered] at entered'
      obtain ⟨_, entered, _⟩ := Option.map_eq_some_iff.mp entered'
      exact absurd (TypeTable.offer?_eq_some entered).1 deep
    · rw [entered] at offered
      rw [home] at deep'
      exact absurd (TypeTable.offer?_eq_some offered).1 deep'
    · rw [home, show (b.rename r).name = r b.name from rfl, offered, entered] at entered'
      cases entered'
      exact ⟨.ok rfl, (states.setTable _ after).record event event'⟩

end Environment.Twin

end ScriptTypes
