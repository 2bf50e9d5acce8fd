import ScriptTypes.Proofs.Listing

/-! Questions that are asked of a new program leave types behind at nodes and nothing else. Only the
seeding round can see them, since every pass forgets them first. Inference therefore ends as in the
new program whenever the seeding round does. It does not always: a type that is found while no name
has one yet may be offered to a table before it is forgotten. -/

namespace ScriptTypes

open Descriptor (Canonical)

def InferM.Still {α : Type} (m : InferM α) (st : State) : Prop := (m.outcome st).2 = st

namespace InferM.Still

variable {α β : Type} {m : InferM α} {f : α → InferM β} {st : State}

theorem pure (a : α) (st : State) : (Pure.pure a : InferM α).Still st := rfl

theorem bind (first : m.Still st) (next : ∀ a, (f a).Still st) : (m >>= f).Still st := by
  rcases ran : m.outcome st with ⟨failure | a, after⟩
  · obtain rfl : after = st := by simpa [Still, ran] using first
    simp [Still, outcome_bind, ran]
  · obtain rfl : after = st := by simpa [Still, ran] using first
    have later := next a
    simpa [Still, outcome_bind, ran] using later

theorem foldlM {step : β → α → InferM β} {as : List α}
    (each : ∀ a ∈ as, ∀ b, (step b a).Still st) (b : β) : (as.foldlM step b).Still st := by
  induction as generalizing b with
  | nil => exact .pure b st
  | cons a as ih =>
    rw [List.foldlM_cons]
    apply Still.bind (each a List.mem_cons_self b)
    intro c
    exact ih (fun a listed => each a (List.mem_cons_of_mem _ listed)) c

theorem ofFault (answer : Except Fault α) (st : State) : (InferM.ofFault answer).Still st := by
  cases answer <;> rfl

theorem nameType (env : Environment) (scope : ScopeId) (field : Option Json) (role : Role)
    (st : State) : (env.nameType scope field role).Still st := by
  simp [Still, Environment.outcome_nameType]

end InferM.Still

namespace Environment

variable {env : Environment} {recursive : Bool} {n : Node}

theorem enterMember_still (bound : n.kind.isFunction = true → n.form.binding? ≠ none)
    (inner : n.kind.isFunction = true → recursive = true →
      ∀ st, (env.listing recursive n).Still st) (owner : NodeId) (listing : Listing) (st : State) :
    (env.enterMember recursive owner listing n).Still st := by
  cases function : n.kind.isFunction with
  | true =>
    rw [enterMember_function function]
    apply InferM.Still.bind
    · obtain ⟨binding, named⟩ := Option.ne_none_iff_exists'.mp (bound function)
      simp only [listedType, named, bindingType]
      exact .nameType env _ _ _ st
    · intro type
      apply InferM.Still.bind
      · by_cases nested : recursive = true
        · rw [if_pos nested, map_eq_pure_bind]
          exact .bind (inner function nested st) fun _ => .pure _ st
        · rw [if_neg nested]
          exact .pure _ st
      · intro inside
        exact .pure _ st
  | false =>
    by_cases listed : ∃ field, n.form = .identifier field .definition ∧
        ¬ (n.head.parent = some owner ∧ n.head.slot = some .id)
    · obtain ⟨field, form, listed⟩ := listed
      rw [enterMember_definition form listed]
      apply InferM.Still.bind (.ofFault _ st)
      intro name
      apply InferM.Still.bind (.nameType env _ _ _ st)
      intro type
      exact .pure _ st
    · rw [enterMember_other function]
      · exact .pure _ st
      · intro field form
        by_contra other
        exact listed ⟨field, form, other⟩

end Environment

/-- The question is about names only: for the type of a name, or for a listing in which all functions
are shown with the types of names. -/
def Query.AsksNames : Query → Prop
  | .type node => node.kind = .identifier
  | .listing recursive node =>
    ∀ f ∈ if recursive then node.descendants else node.members,
      f.kind.isFunction = true → f.form.binding? ≠ none

theorem Environment.listing_still {env : Environment} {recursive : Bool} {n : Node}
    (names : (Query.listing recursive n).AsksNames) (st : State) :
    (env.listing recursive n).Still st := by
  induction n using Node.descendants_induction generalizing st with
  | step n ih =>
    rw [listing_eq_foldlM]
    apply InferM.Still.foldlM
    intro m member entered
    have below := n.members_sublist.mem member
    apply enterMember_still
    · apply names m
      cases recursive with
      | false => exact member
      | true => exact below
    · rintro _ rfl later
      apply ih m below
      intro f inside
      exact names f (Node.descendants_trans (Node.mem_preorder.mpr (.inr inside)) below)

namespace Program

variable {p : Program} {st left right : State}

theorem asked_names {q : Query} (names : q.AsksNames) (st : State) : p.asked st q = st := by
  cases q with
  | type node =>
    obtain ⟨field, role, form⟩ := Node.identifier_of_kind names
    have still : (node.typeOf p.toEnvironment).Still st := by
      rw [Node.typeOf_identifier form]
      exact .nameType _ _ _ _ st
    exact still.bind fun _ => .pure () st
  | listing recursive node =>
    have still : (p.listing recursive node).Still st := Environment.listing_still names st
    exact still.bind fun _ => .pure () st

theorem asked_all_names {queries : List Query} (names : ∀ q ∈ queries, q.AsksNames) :
    queries.foldl p.asked st = st := by
  induction queries with
  | nil => rfl
  | cons q queries ih =>
    rw [List.foldl_cons, asked_names (names q List.mem_cons_self)]
    exact ih fun r listed => names r (List.mem_cons_of_mem _ listed)

/-- The states have the same tables, and as many types can be remembered. -/
abbrev SameTables (left right : State) : Prop := left.Alike (fun _ => False) right

theorem sameTables_iff : SameTables left right ↔
    left.tables = right.tables ∧ left.types.size = right.types.size :=
  ⟨fun alike => ⟨alike.tables, alike.size⟩, fun same => ⟨same.1, same.2, fun _ none => none.elim⟩⟩

theorem passes_matched (formed : p.WellFormed) (count done : Nat) (lawful : left.Lawful p)
    (same : SameTables left right) :
    Matched (fun _ => False) ((p.passes count done).outcome left)
      ((p.passes count done).outcome right) := by
  induction count generalizing done left right with
  | zero => exact ⟨rfl, same⟩
  | succ count ih =>
    obtain ⟨answer, alike⟩ := pass_matched formed lawful same.tables same.size
    have kept := (pass_keeps formed lawful).lawful
    have first : Matched (fun _ => False) (p.pass.outcome left) (p.pass.outcome right) :=
      ⟨answer, sameTables_iff.mpr ⟨alike.tables, alike.size⟩⟩
    rw [passes]
    apply first.bind
    intro changes middle ran other like
    have still : (middle.record (.passed (done + 1) changes)).Lawful p := by
      rw [ran] at kept
      exact kept.record _
    have recorded : SameTables (middle.record (.passed (done + 1) changes))
        (other.record (.passed (done + 1) changes)) :=
      sameTables_iff.mpr ⟨like.tables, like.size⟩
    simp only [InferM.outcome_bind, InferM.outcome_modify]
    split
    · exact ⟨rfl, recorded⟩
    · exact ih (done + 1) still recorded

/-- Inference ends alike wherever the seeding round does. -/
theorem infer_matched (formed : p.WellFormed) (lawful : left.Lawful p)
    (seeded : Matched (fun _ => False) ((p.paced 0).outcome left) ((p.paced 0).outcome right)) :
    Matched (fun _ => False) (p.infer.outcome left) (p.infer.outcome right) := by
  have kept := (paced_keeps formed lawful 0).lawful
  rw [infer_eq]
  apply seeded.bind
  intro _ middle ran other same
  rw [ran] at kept
  apply (passes_matched formed p.passLimit 0 kept same).bind
  intro count last _ final alike
  exact ⟨rfl, sameTables_iff.mpr ⟨alike.tables, alike.size⟩⟩

def questioned (p : Program) (queries : List Query) : State := queries.foldl p.asked p.start

theorem questioned_keeps (formed : p.WellFormed) (queries : List Query)
    (inside : ∀ q ∈ queries, q.node ∈ p.root.preorder) (lawful : st.Lawful p) :
    (queries.foldl p.asked st).tables = st.tables ∧
      (queries.foldl p.asked st).events = st.events ∧
      (queries.foldl p.asked st).types.size = st.types.size ∧
      (queries.foldl p.asked st).Lawful p := by
  induction queries generalizing st with
  | nil => exact ⟨rfl, rfl, rfl, lawful⟩
  | cons q queries ih =>
    have consults : Consults Canonical p.toEnvironment (· ∈ p.root.preorder) (fun _ => True)
        (q.ask p.toEnvironment) := q.ask_consults (inside q List.mem_cons_self)
    have reads := consults.reads formed st lawful
    obtain ⟨tables, events, size, kept⟩ :=
      ih (fun r listed => inside r (List.mem_cons_of_mem _ listed)) reads.lawful
    exact ⟨tables.trans reads.tables, events.trans reads.events, size.trans reads.size, kept⟩

theorem forgetAll_events (nodes : List Node) (st : State) :
    (forgetAll nodes st).events = st.events := by
  induction nodes generalizing st with
  | nil => rfl
  | cons n nodes ih => exact ih (st.forget n.id)

/-- Once all nodes are forgotten, nothing but tables and events tells a state from a new one. -/
theorem forgetAll_eq_start (numbered : p.root.preorder.map Node.id = List.range p.nodeCount)
    (tables : st.tables = p.start.tables) (events : st.events = p.start.events)
    (size : st.types.size = p.nodeCount) : forgetAll p.root.preorder st = p.start := by
  have nothing : (forgetAll p.root.preorder st).types = p.start.types := by
    apply Array.ext
    · simp [forgetAll_tables, size, start, State.start]
    · intro id inside _
      have covered : id ∈ p.root.preorder.map Node.id := by
        rw [numbered, List.mem_range]
        simpa [forgetAll_tables, size] using inside
      have forgotten := typeAt_forgetAll p.root.preorder st id
      rw [if_pos covered, State.typeAt, Array.getElem?_eq_getElem inside] at forgotten
      simpa [start, State.start] using forgotten
  have same : ∀ other : State, other.tables = p.start.tables → other.types = p.start.types →
      other.events = p.start.events → other = p.start := by
    rintro ⟨_, _, _⟩ rfl rfl rfl
    rfl
  apply same _ _ nothing
  · rw [forgetAll_events, events]
  · rw [(forgetAll_tables _ st).1, tables]

/-- Questions asked of a new program change no table, and forgetting all nodes undoes them. Inference
then ends with the same answer and the same tables as in the new program if the seeding round does;
and questions about names leave nothing behind at all. -/
theorem questions_reach_seeding {settings : Settings} {tree : Json}
    (accepted : ofJson settings tree = .ok p) (queries : List Query)
    (inside : ∀ q ∈ queries, q.node ∈ p.root.preorder) :
    (p.questioned queries).tables = p.start.tables ∧
    forgetAll p.root.preorder (p.questioned queries) = p.start ∧
    (((p.paced 0).outcome (p.questioned queries)).1 = ((p.paced 0).outcome p.start).1 →
      p.tablesAt (p.questioned queries) 0 = p.tablesAt p.start 0 →
      (p.infer.outcome (p.questioned queries)).1 = (p.infer.outcome p.start).1 ∧
      (p.infer.outcome (p.questioned queries)).2.tables = (p.infer.outcome p.start).2.tables) ∧
    ((∀ q ∈ queries, q.AsksNames) → p.questioned queries = p.start) := by
  have formed := wellFormed_of_ofJson accepted
  have fresh := p.start_lawful
  obtain ⟨tables, events, size, lawful⟩ := questioned_keeps formed queries inside fresh
  have count : p.start.types.size = p.nodeCount := Array.size_replicate
  refine ⟨tables, ?_, ?_, ?_⟩
  · exact forgetAll_eq_start (numbers_of_ofJson accepted) tables events (size.trans count)
  · intro answer seeded
    have width := (paced_keeps formed lawful 0).size
    have other := (paced_keeps formed fresh 0).size
    have alike : SameTables ((p.paced 0).outcome (p.questioned queries)).2
        ((p.paced 0).outcome p.start).2 :=
      sameTables_iff.mpr ⟨seeded, width.trans (size.trans other.symm)⟩
    obtain ⟨same, ended⟩ := infer_matched formed lawful ⟨answer, alike⟩
    exact ⟨same, ended.tables⟩
  · exact asked_all_names

theorem answering_questioned : ∃ p, ofJson .standard answering = .ok p ∧
    (∀ q ∈ p.questions, q.node ∈ p.root.preorder) ∧
    (∃ n ∈ p.root.preorder, (p.questioned p.questions).typeAt n.id = some .object) ∧
    forgetAll p.root.preorder (p.questioned p.questions) = p.start ∧
    (p.infer.outcome (p.questioned p.questions)).2.tables = (p.infer.outcome p.start).2.tables := by
  have run : ∃ p, ofJson .standard answering = .ok p ∧
      (∃ n ∈ p.root.preorder, (p.questioned p.questions).typeAt n.id = some .object) ∧
      (∃ u, ((p.paced 0).outcome (p.questioned p.questions)).1 = .ok u ∧ u = ()) ∧
      (∃ u, ((p.paced 0).outcome p.start).1 = .ok u ∧ u = ()) ∧
      p.tablesAt (p.questioned p.questions) 0 = p.tablesAt p.start 0 := by
    decide +kernel
  obtain ⟨p, accepted, stale, ⟨_, answer, rfl⟩, ⟨_, other, rfl⟩, seeded⟩ := run
  have inside : ∀ q ∈ p.questions, q.node ∈ p.root.preorder := fun _ => node_mem_of_questions
  obtain ⟨_, forgotten, ended, _⟩ := questions_reach_seeding accepted p.questions inside
  exact ⟨p, accepted, inside, stale, forgotten, (ended (answer.trans other.symm) seeded).2⟩

open Raw in
/-- In `x = "a"; y = x + 1;` the sum is an integer while nothing is known of `x`. -/
def summing : Json :=
  program [
    assignment "x" (literal (.text "a")),
    assignment "y" (node "BinaryExpression"
      [("operator", .text "+"), ("left", identifier "x"), ("right", literal (.int 1))])]

/-- A question asked before inference can change the tables that inference returns with. -/
theorem question_may_change_inference :
    ¬ ∀ settings tree p (queries : List Query) m n, ofJson settings tree = .ok p →
      (∀ q ∈ queries, q.node ∈ p.root.preorder) →
      (p.infer.outcome (p.questioned queries)).1 = .ok m → (p.infer.outcome p.start).1 = .ok n →
      (p.infer.outcome (p.questioned queries)).2.tables =
        (p.infer.outcome p.start).2.tables := by
  intro same
  have run : ∃ p, ofJson .standard summing = .ok p ∧
      ∃ node ∈ p.root.preorder,
        (∃ m, (p.infer.outcome (p.questioned [.type node])).1 = .ok m ∧ m = 2) ∧
        (∃ n, (p.infer.outcome p.start).1 = .ok n ∧ n = 1) ∧
        (p.infer.outcome (p.questioned [.type node])).2.tables ≠
          (p.infer.outcome p.start).2.tables := by
    decide +kernel
  obtain ⟨p, accepted, node, member, ⟨m, returned, _⟩, ⟨n, plain, _⟩, differs⟩ := run
  apply differs
  apply same _ _ p _ m n accepted _ returned plain
  simpa [Query.node] using member

end Program

end ScriptTypes
