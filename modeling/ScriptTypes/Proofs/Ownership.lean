import ScriptTypes.Proofs.Bindings
import ScriptTypes.Proofs.Histories

/-! Whatever is done to a program, hints of any shape included, a scope has candidates only for
names that belong to it: those it declares and, in the program's scope, those that no scope around
some use of them declares. Functions are bound to declared names only. -/

namespace ScriptTypes

open Descriptor (Ample)

/-- Every name that has candidates in a scope belongs there. -/
def State.Owned (belongs : ScopeId → Name → Prop) (st : State) : Prop :=
  ∀ s, ∀ name ∈ Table.names (st.table s), belongs s name

namespace State.Owned

variable {belongs : ScopeId → Name → Prop} {st after : State}

theorem of_tables (owned : st.Owned belongs) (same : after.tables = st.tables) :
    after.Owned belongs := by
  intro s name listed
  rw [State.table_congr same] at listed
  exact owned s name listed

theorem setTable (owned : st.Owned belongs) {s : ScopeId} {t : TypeTable}
    (all : ∀ name ∈ Table.names t, belongs s name) : (st.setTable s t).Owned belongs := by
  intro u name listed
  unfold State.setTable State.table at listed
  rw [Array.getElem?_setIfInBounds] at listed
  split at listed
  · next same =>
    subst same
    split at listed
    · exact all name listed
    · cases listed
  · exact owned u name listed

theorem offered (owned : st.Owned belongs) {s : ScopeId} {name : Name} {d : Descriptor} {bound : Int}
    {t entered : TypeTable} (fits : belongs s name)
    (all : ∀ other ∈ Table.names t, belongs s other)
    (accepted : t.offer? bound name d = some entered) : (st.setTable s entered).Owned belongs := by
  obtain ⟨_, _, rfl⟩ := TypeTable.offer?_eq_some accepted
  refine owned.setTable fun other listed => ?_
  rcases Table.mem_names_put listed with rfl | old
  · exact fits
  · exact all other old

end State.Owned

/-- Whether it answers or fails, the computation adds candidates only where they belong; what it
answers satisfies the postcondition. -/
def InferM.Preserves {α : Type} (belongs : ScopeId → Name → Prop) (Q : α → Prop) (m : InferM α) :
    Prop :=
  ∀ st : State, st.Owned belongs →
    (m.outcome st).2.Owned belongs ∧ ∀ a, (m.outcome st).1 = .ok a → Q a

namespace InferM.Preserves

variable {belongs : ScopeId → Name → Prop} {α β : Type} {P : α → Prop} {Q : β → Prop} {m : InferM α}
  {f : α → InferM β}

theorem mono {weaker : α → Prop} (preserves : m.Preserves belongs P) (holds : ∀ a, P a → weaker a) :
    m.Preserves belongs weaker := by
  intro st owned
  obtain ⟨still, answer⟩ := preserves st owned
  exact ⟨still, fun a same => holds a (answer a same)⟩

theorem pure {a : α} (holds : P a) : (Pure.pure a : InferM α).Preserves belongs P := by
  intro st owned
  refine ⟨owned, ?_⟩
  rintro b ⟨⟩
  exact holds

theorem bind (first : m.Preserves belongs P) (next : ∀ a, P a → (f a).Preserves belongs Q) :
    (m >>= f).Preserves belongs Q := by
  intro st owned
  obtain ⟨still, answer⟩ := first st owned
  rcases ran : m.outcome st with ⟨failure | a, middle⟩
  · rw [ran] at still
    rw [InferM.outcome_bind_error ran]
    exact ⟨still, fun b impossible => by cases impossible⟩
  · rw [ran] at still answer
    rw [InferM.outcome_bind_ok ran]
    exact next a (answer a rfl) middle still

theorem get : (MonadState.get : InferM State).Preserves belongs fun _ => True :=
  fun _ owned => ⟨owned, fun _ _ => trivial⟩

theorem change {f : State → State} (same : ∀ st, (f st).tables = st.tables) :
    (modify f : InferM PUnit).Preserves belongs fun _ => True :=
  fun st owned => ⟨owned.of_tables (same st), fun _ _ => trivial⟩

theorem recorded (event : Event) :
    (modify (State.record event) : InferM PUnit).Preserves belongs fun _ => True := change fun _ => rfl

theorem discarded (preserves : m.Preserves belongs P) :
    (discard m : InferM Unit).Preserves belongs fun _ => True := by
  intro st owned
  rw [InferM.outcome_discard]
  exact ⟨(preserves st owned).1, fun _ _ => trivial⟩

theorem nameType (env : Environment) (scope : ScopeId) (field : Option Json) (role : Role) :
    (env.nameType scope field role).Preserves belongs fun _ => True := by
  intro st owned
  rw [Environment.outcome_nameType]
  exact ⟨owned, fun _ _ => trivial⟩

theorem remembering {compute : InferM Descriptor} {Q : Descriptor → Prop} (n : NodeId)
    (preserves : compute.Preserves belongs Q) :
    (InferM.remembering n compute).Preserves belongs fun _ => True := by
  refine get.bind fun st _ => ?_
  split
  · exact .pure trivial
  · refine preserves.bind fun d _ => ?_
    exact (change fun _ => State.remember_tables ..).bind fun _ _ => .pure trivial

theorem offer {scopes : Scopes} {s : ScopeId} {name : Name} (fits : belongs s name) (d : Descriptor) :
    (liftM (scopes.offer s name d) : InferM Bool).Preserves belongs fun _ => True := by
  intro st owned
  rcases outcome_offer scopes s name d st with ⟨_, ran⟩ | ⟨after, event, entered, ran⟩
  · rw [ran]
    exact ⟨owned, fun _ _ => trivial⟩
  · rw [ran]
    have still := owned.offered fits (owned s) entered
    exact ⟨still.of_tables rfl, fun _ _ => trivial⟩

end InferM.Preserves

section

variable {belongs : ScopeId → Name → Prop} {env : Environment} {asked : Node → Prop} {α : Type}
  {m : InferM α}

theorem Consults.preserves_of_asked {Q : α → Prop}
    (each : ∀ n, asked n → (n.typeOf env).Preserves belongs fun _ => True)
    (consults : Consults (fun _ => True) env asked Q m) : m.Preserves belongs Q := by
  induction consults with
  | pure holds => exact .pure holds
  | throw _ => exact fun st owned => ⟨owned, fun a impossible => by cases impossible⟩
  | name scope field role holds => exact (InferM.Preserves.nameType env scope field role).mono holds
  | type member holds => exact (each _ member).mono holds
  | bind _ _ first next => exact first.bind next

/-- Asking for a type adds no candidates, whatever the tables hold. -/
theorem Node.typeOf_preserves (n : Node) : (n.typeOf env).Preserves belongs fun _ => True := by
  induction n using descendants_induction with
  | step n below =>
    rcases n.identifier_or_other with ⟨field, role, form⟩ | other
    · rw [typeOf_identifier form]
      exact .nameType env _ field role
    · rw [typeOf_other other]
      have rules : Consults (fun _ => True) env (· ∈ n.descendants) (fun _ => True)
          (rule env n (n.parts env)) := rule_consults Ample.all n n.parts_consult
      exact .remembering n.id (rules.preserves_of_asked below)

theorem Consults.preserves {Q : α → Prop} (consults : Consults (fun _ => True) env asked Q m) :
    m.Preserves belongs Q := consults.preserves_of_asked fun n _ => n.typeOf_preserves

/-- Teaching adds candidates only at names of the tree. -/
theorem Teaches.preserves {Q : α → Bool → Prop}
    (sites : ∀ s name, Site env asked s name → belongs s name)
    (teaches : Teaches (fun _ => True) env asked Q m) :
    m.Preserves belongs fun a => ∃ accepted, Q a accepted := by
  induction teaches with
  | read consults holds => exact consults.preserves.mono fun a known => ⟨false, holds a known⟩
  | offer site _ holds =>
    exact (InferM.Preserves.offer (sites _ _ site) _).mono fun accepted _ => ⟨accepted, holds accepted⟩
  | bind _ _ first next =>
    refine first.bind fun a ⟨earlier, known⟩ => ?_
    exact (next a earlier known).mono fun b ⟨later, holds⟩ => ⟨earlier || later, holds⟩

theorem Environment.revise_preserves {b : Binding} (fits : belongs (env.homeOf b) b.name)
    (d : Descriptor) : (env.revise b d).Preserves belongs fun _ => True := by
  intro st owned
  have erased : ∀ name ∈ Table.names (Table.erase b.name (st.table (env.homeOf b))),
      belongs (env.homeOf b) name := fun name listed =>
    owned _ name (((Table.erase_sublist b.name _).map Prod.fst).mem listed)
  cases contradicted : Candidates.contradicts d ((st.table (env.homeOf b)).candidates b.name) with
  | false =>
    rw [outcome_revise_agreeing env b d st contradicted]
    exact InferM.Preserves.offer fits d st owned
  | true =>
    rcases outcome_revise_contradicting env b d st contradicted with
      ⟨_, ran⟩ | ⟨after, event, entered, ran⟩
    · rw [ran]
      exact ⟨owned.setTable erased, fun _ _ => trivial⟩
    · rw [ran]
      have still := owned.offered fits erased entered
      exact ⟨still.of_tables rfl, fun _ _ => trivial⟩

end

namespace Program

variable {p : Program} {belongs : ScopeId → Name → Prop}

/-- All that nodes of the program can record belongs where they record it. -/
structure Allots (p : Program) (belongs : ScopeId → Name → Prop) : Prop where
  hinted : ∀ s name, Site p.toEnvironment (· ∈ p.root.preorder) s name → belongs s name
  bound : ∀ b id, p.lastBound b = some id → belongs (p.homeOf b) b.name

namespace Allots

variable (allots : p.Allots belongs)

include allots

theorem teaches {α : Type} {Q : α → Bool → Prop} {m : InferM α}
    (teaches : Teaches (fun _ => True) p.toEnvironment (· ∈ p.root.preorder) Q m) :
    m.Preserves belongs fun _ => True :=
  (teaches.preserves allots.hinted).mono fun _ _ => trivial

theorem settle {node : Node} (member : node ∈ p.root.preorder) :
    (p.settle node).Preserves belongs fun _ => True := by
  cases records : Environment.recorded? node with
  | none =>
    exact allots.teaches (Environment.settle_teaches Node.preorder_closed Ample.all member records)
  | some recorded =>
    obtain ⟨f, b⟩ := recorded
    rw [Environment.settle_of_recorded records, Environment.recordFunction_eq]
    split
    · next last =>
      refine f.typeOf_preserves.bind fun d _ => ?_
      exact Environment.revise_preserves (allots.bound b f.id last) d
    · exact .pure trivial

theorem settleAll {nodes : List Node} (inside : ∀ n ∈ nodes, n ∈ p.root.preorder) :
    (p.settleAll nodes).Preserves belongs fun _ => True := by
  induction nodes with
  | nil => exact .pure trivial
  | cons n nodes ih =>
    refine (allots.settle (inside n List.mem_cons_self)).bind fun _ _ => ?_
    refine (ih fun m listed => inside m (List.mem_cons_of_mem _ listed)).bind fun _ _ => ?_
    exact .pure trivial

theorem pass : p.pass.Preserves belongs fun _ => True := by
  refine (InferM.Preserves.change fun st => (forgetAll_tables _ st).1).bind fun _ _ => ?_
  exact allots.settleAll fun n below => Node.mem_preorder.mpr (.inr below)

theorem passes (left done : Nat) : (p.passes left done).Preserves belongs fun _ => True := by
  induction left generalizing done with
  | zero => exact fun st owned => ⟨owned, fun _ _ => trivial⟩
  | succ left ih =>
    rw [Program.passes]
    refine allots.pass.bind fun changes _ => ?_
    refine (InferM.Preserves.recorded _).bind fun _ _ => ?_
    split
    · exact .pure trivial
    · exact ih (done + 1)

theorem infer : p.infer.Preserves belongs fun _ => True := by
  have seeded := allots.settleAll fun n listed =>
    Node.mem_preorder.mpr (.inr (p.root.descendantsUp_perm.mem_iff.mp listed))
  refine seeded.discarded.bind fun _ _ => ?_
  refine (allots.passes p.passLimit 0).bind fun passes _ => ?_
  exact (InferM.Preserves.recorded _).bind fun _ _ => .pure trivial

end Allots

end Program

/-- One thing that is done to a program: an action, what a node teaches on its own, or a hint that a
node has some type, canonical or not. -/
inductive Move where
  | act (a : Action)
  | teach (node : Node)
  | hint (node : Node) (d : Descriptor)

namespace Move

def Inside (p : Program) : Move → Prop
  | act a => a.Inside p
  | teach node => node ∈ p.root.preorder
  | hint node _ => node ∈ p.root.preorder

def run (p : Program) : Move → InferM Unit
  | act a => a.run p
  | teach node => discard (p.teach node)
  | hint node d => discard (p.hint node d)

end Move

namespace Program

variable {p : Program} {belongs : ScopeId → Name → Prop} {st : State}

/-- The state that a move leaves behind, also when it fails. -/
def moved (p : Program) (st : State) (move : Move) : State := ((move.run p).outcome st).2

theorem Allots.moved (allots : p.Allots belongs) {move : Move} (inside : move.Inside p)
    (owned : st.Owned belongs) : (p.moved st move).Owned belongs := by
  have preserves : (move.run p).Preserves belongs fun _ => True := by
    cases move with
    | act a =>
      cases a with
      | infer => exact allots.infer.discarded
      | settle node => exact (allots.settle inside).discarded
      | forget node => exact .change fun _ => rfl
      | ask q => exact (q.ask_consults inside).preserves
    | teach node =>
      exact (allots.teaches
        (Environment.teach_teaches Node.preorder_closed Ample.all inside)).discarded
    | hint node d =>
      have held := Environment.asked_content Node.preorder_closed inside
      exact (allots.teaches (Environment.hint_teaches Ample.all inside held trivial)).discarded
  exact (preserves st owned).1

theorem Allots.moves (allots : p.Allots belongs) {moves : List Move}
    (inside : ∀ move ∈ moves, move.Inside p) (owned : st.Owned belongs) :
    (moves.foldl p.moved st).Owned belongs := by
  induction moves generalizing st with
  | nil => exact owned
  | cons move moves ih =>
    have next := allots.moved (inside move List.mem_cons_self) owned
    exact ih (fun other listed => inside other (List.mem_cons_of_mem _ listed)) next

theorem start_owned (p : Program) : p.start.Owned belongs := by
  intro s name listed
  have empty : p.start.table s = [] := by
    unfold start State.start State.table
    rw [Array.getElem?_replicate]
    split <;> rfl
  rw [empty] at listed
  cases listed

/-- The name is used where no scope around declares it, other than as a label. -/
def Undeclared (p : Program) (name : Name) : Prop :=
  ∃ n ∈ p.root.preorder, ∃ field role, n.form = .identifier field role ∧ role ≠ .label ∧
    Name.ofField field = .ok name ∧
    ∀ s ∈ p.scopes.chain n.head.scope, p.scopes.declares name s = false

/-- The scope declares the name, or it is the program's and the name is declared nowhere around some
use. -/
def Owns (p : Program) (s : ScopeId) (name : Name) : Prop :=
  p.scopes.declares name s = true ∨ s = 0 ∧ p.Undeclared name

theorem declares_of_functionAt {settings : Settings} {tree : Json}
    (accepted : ofJson settings tree = .ok p) {s : ScopeId} {name : Name}
    (found : (p.scopes.functionAt s name).isSome = true) : p.scopes.declares name s = true := by
  have inside : s < p.scopes.size := by
    by_contra outside
    simp [Scopes.functionAt, Scopes.entryAt, Array.getElem?_eq_none (Nat.le_of_not_lt outside)] at found
  obtain ⟨i, f, binds⟩ := ((named_of_ofJson accepted).isSome_functionAt inside).mp found
  rw [(entered_of_ofJson accepted).declares_iff (wellFormed_of_ofJson accepted)]
  exact binds.holds

theorem allots_owns {settings : Settings} {tree : Json} (accepted : ofJson settings tree = .ok p) :
    p.Allots p.Owns where
  hinted := by
    rintro s name ⟨n, field, role, member, form, other, named, rfl⟩
    have formed := wellFormed_of_ofJson accepted
    have entered := entered_of_ofJson accepted
    rcases entered.innermost_home formed (formed.placed n member).scope name with
      ⟨inner, outer, _, holds, _⟩ | ⟨program, none⟩
    · exact .inl ((entered.declares_iff formed _ name).mpr holds)
    · refine .inr ⟨program, n, member, field, role, form, other, named, fun s around => ?_⟩
      rw [← Bool.not_eq_true, entered.declares_iff formed]
      exact none s around
  bound b id last := .inl (declares_of_functionAt accepted (by
    change (p.lastBound b).isSome = true
    rw [last]
    rfl))

/-- Candidates and functions stand only in scopes that their names belong to. -/
structure Housed (p : Program) (st : State) : Prop where
  /-- A function's scope has candidates for the names that it declares. -/
  inner : ∀ s, s ≠ 0 → ∀ name ∈ Table.names (st.table s), p.scopes.declares name s = true
  /-- The program's scope also has them for names that are not declared around some use. -/
  program : ∀ name ∈ Table.names (st.table 0), p.scopes.declares name 0 = true ∨ p.Undeclared name
  bound : ∀ s scope, p.scopes[s]? = some scope →
    ∀ name ∈ Table.names scope.functions, p.scopes.declares name s = true

/-- Whatever is done to a program, and whether or not it fails, a hint never lands in a scope that
does not own the name. -/
theorem housed_after_moves {settings : Settings} {tree : Json}
    (accepted : ofJson settings tree = .ok p) (moves : List Move)
    (inside : ∀ move ∈ moves, move.Inside p) : p.Housed (moves.foldl p.moved p.start) := by
  have owned := (allots_owns accepted).moves inside p.start_owned
  refine ⟨?_, ?_, ?_⟩
  · intro s inner name listed
    rcases owned s name listed with declared | ⟨program, _⟩
    · exact declared
    · exact absurd program inner
  · intro name listed
    rcases owned 0 name listed with declared | ⟨_, undeclared⟩
    · exact .inl declared
    · exact .inr undeclared
  · intro s scope found name listed
    refine declares_of_functionAt accepted ?_
    simpa [Scopes.functionAt, Scopes.entryAt, found] using Table.isSome_get?_of_mem_names listed

/-- Hints at every node that it has an odd type, lets each teach in turn and infers. -/
def pestering (p : Program) : List Move :=
  p.root.preorder.map (fun n => .hint n (.union [.union []])) ++
    p.root.preorder.map .teach ++ [.act .infer]

theorem inside_of_pestering {move : Move} (listed : move ∈ p.pestering) : move.Inside p := by
  simp only [pestering, List.mem_append, List.mem_map, List.mem_singleton] at listed
  rcases listed with (⟨n, member, rfl⟩ | ⟨n, member, rfl⟩) | rfl
  · exact member
  · exact member
  · trivial

theorem shadowing_housed : ∃ p, ofJson .standard shadowing = .ok p ∧
    (∃ move ∈ p.pestering, ((move.run p).outcome p.start).1.isOk = false) ∧
    (p.pestering.foldl p.moved p.start).tables.toList.map Table.names =
      [[.text "late", .text "x", .text "free"], [.text "g", .text "x"]] ∧
    p.Housed (p.pestering.foldl p.moved p.start) := by
  have run : ∃ p, ofJson .standard shadowing = .ok p ∧
      (∃ move ∈ p.pestering, ((move.run p).outcome p.start).1.isOk = false) ∧
      (p.pestering.foldl p.moved p.start).tables.toList.map Table.names =
        [[.text "late", .text "x", .text "free"], [.text "g", .text "x"]] := by
    decide +kernel
  obtain ⟨p, accepted, fails, names⟩ := run
  exact ⟨p, accepted, fails, names,
    housed_after_moves accepted p.pestering fun move listed => inside_of_pestering listed⟩

end Program

end ScriptTypes
