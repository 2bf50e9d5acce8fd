import ScriptTypes.Proofs.Inference.Passes
import ScriptTypes.Proofs.Tree.Raw

/-! Inference returns after a pass that counts no changes. Such a pass may still drop a type: a
function whose derived type contradicts the recorded one and is too deep to be recorded leaves its
name without a type. If none is dropped the pass leaves all tables as they are, every node is quiet
under them, and so is any later run, whatever was asked in between. -/

namespace ScriptTypes

open Descriptor (Canonical)

inductive Query where
  | type (node : Node)
  | listing (recursive : Bool) (node : Node)

inductive Answer where
  | type (d : Descriptor)
  | names (listing : Listing)

namespace Query

def node : Query → Node
  | type node => node
  | listing _ node => node

def answer (env : Environment) : Query → InferM Answer
  | type node => do return .type (← node.typeOf env)
  | listing recursive node => do return .names (← env.listing recursive node)

def ask (env : Environment) : Query → InferM Unit
  | type node => do
    let _ ← node.typeOf env
    return ()
  | listing recursive node => do
    let _ ← env.listing recursive node
    return ()

theorem ask_eq (env : Environment) (q : Query) :
    q.ask env = (do let _ ← q.answer env; return ()) := by
  cases q <;> simp [ask, answer]

theorem answer_consults {sort : Descriptor → Prop} {env : Environment} {root : Node} (q : Query)
    (inside : q.node ∈ root.preorder) :
    Consults sort env (· ∈ root.preorder) (fun _ => True) (q.answer env) := by
  cases q with
  | type node => exact .bind (.type inside fun _ sorted => sorted) fun _ _ => .pure trivial
  | listing recursive node =>
    have below : ∀ m ∈ node.preorder, m ∈ root.preorder :=
      fun m member => Node.preorder_trans member inside
    exact .bind (Environment.listing_consults below recursive) fun _ _ => .pure trivial

theorem ask_consults {sort : Descriptor → Prop} {env : Environment} {root : Node} (q : Query)
    (inside : q.node ∈ root.preorder) :
    Consults sort env (· ∈ root.preorder) (fun _ => True) (q.ask env) := by
  rw [q.ask_eq]
  exact .bind (q.answer_consults inside) fun _ _ => .pure trivial

end Query

namespace State

/-- The tables have lost entries at most. -/
structure Shrunk (after before : State) : Prop where
  size : after.tables.size = before.tables.size
  table : ∀ s, (after.table s).Sublist (before.table s)

theorem Shrunk.refl (st : State) : st.Shrunk st := ⟨rfl, fun _ => .refl _⟩

theorem Shrunk.trans {first second third : State} (later : third.Shrunk second)
    (earlier : second.Shrunk first) : third.Shrunk first :=
  ⟨later.size.trans earlier.size, fun s => (later.table s).trans (earlier.table s)⟩

theorem Shrunk.of_tables {after before : State} (same : after.tables = before.tables) :
    after.Shrunk before := by
  refine ⟨by rw [same], ?_⟩
  intro s
  rw [table_congr same s]

theorem tables_eq_of_table {left right : State} (size : left.tables.size = right.tables.size)
    (same : ∀ s, left.table s = right.table s) : left.tables = right.tables := by
  refine Array.ext size ?_
  intro s inside other
  have entry := same s
  unfold State.table at entry
  rw [Array.getElem?_eq_getElem inside, Array.getElem?_eq_getElem other] at entry
  exact entry

/-- What only loses entries and ends where it began has never changed. -/
theorem Shrunk.eq_of_returns {first second third : State} (later : third.Shrunk second)
    (earlier : second.Shrunk first) (returns : third.tables = first.tables) :
    second.tables = first.tables := by
  refine tables_eq_of_table earlier.size ?_
  intro s
  refine (earlier.table s).antisymm ?_
  rw [← table_congr returns s]
  exact later.table s

theorem table_setTable_of_ne (st : State) {s other : ScopeId} (t : TypeTable) (apart : other ≠ s) :
    (st.setTable s t).table other = st.table other := by
  unfold setTable table
  rw [Array.getElem?_setIfInBounds_ne (Ne.symm apart)]

end State

namespace Program

variable {p : Program} {st after : State}

/-- The node's type, derived anew under these tables, contradicts what is recorded of its name and
is too deep to be recorded itself. -/
def Discards (p : Program) (tables : Array TypeTable) (node : Node) : Prop :=
  ∃ f b d, p.Overturns (.bare tables) node f b d ∧ p.settings.maxDepth < d.depth

/-- Settling the node changes nothing under these tables. -/
def Quiet (p : Program) (tables : Array TypeTable) (node : Node) : Prop :=
  (p.settle node).outcome (.bare tables) = (.ok false, .bare tables)

theorem too_deep_iff (formed : p.WellFormed) {node f : Node} {b : Binding} {d : Descriptor}
    (member : node ∈ p.root.preorder) (overturns : p.Overturns st node f b d) :
    ¬ TypeTable.Admissible (p.scopes.boundOf (p.homeOf b)) d ↔ p.settings.maxDepth < d.depth := by
  have place := formed.records_of_recorded overturns.records member
  rw [formed.closed.boundOf place.scope]
  have proper := (Candidates.ne_of_contradicts overturns.contradicted).2.2
  unfold TypeTable.Admissible
  constructor
  · intro deep
    by_contra shallow
    exact deep ⟨proper, by omega⟩
  · rintro deep ⟨_, shallow⟩
    omega

/-- A node that reports no change has left the tables alone or dropped an entry. -/
theorem settle_shrinks (formed : p.WellFormed) {node : Node} (member : node ∈ p.root.preorder)
    (lawful : st.Lawful p) (ran : (p.settle node).outcome st = (.ok false, after)) :
    after.Shrunk st := by
  by_cases overturns : ∃ f b d, p.Overturns st node f b d
  · obtain ⟨f, b, d, overturns⟩ := overturns
    obtain ⟨middle, tables, still, _, ⟨_, dropped⟩ | ⟨_, _, _, entered⟩⟩ :=
      outcome_overturned formed member lawful overturns
    · rw [ran] at dropped
      cases dropped
      have place := formed.records_of_recorded overturns.records member
      constructor
      · change (middle.tables.setIfInBounds _ _).size = _
        rw [Array.size_setIfInBounds, still.size, lawful.size]
      · intro s
        by_cases same : s = p.homeOf b
        · subst same
          rw [middle.table_setTable _ (still.size ▸ place.scope)]
          exact Table.erase_sublist b.name _
        · rw [middle.table_setTable_of_ne _ same, tables]
    · rw [ran] at entered
      cases entered
  · obtain ⟨accepted, learns⟩ := settle_learns formed member lawful
      fun f b d overturned => overturns ⟨f, b, d, overturned⟩
    have none : false = accepted := learns.answer false (by rw [ran])
    have same := learns.quiet none.symm
    rw [ran] at same
    exact .of_tables same

theorem settleAll_zero {n : Node} {nodes : List Node}
    (ran : (p.settleAll (n :: nodes)).outcome st = (.ok 0, after)) :
    ∃ middle, (p.settle n).outcome st = (.ok false, middle) ∧
      (p.settleAll nodes).outcome middle = (.ok 0, after) := by
  obtain ⟨changed, middle, rest, head, tail, total⟩ := settleAll_cons_ok ran
  cases changed with
  | true => simp at total
  | false =>
    simp only [Bool.false_eq_true, if_false] at total
    subst total
    exact ⟨middle, head, tail⟩

theorem settleAll_shrinks (formed : p.WellFormed) {nodes : List Node}
    (inside : ∀ n ∈ nodes, n ∈ p.root.preorder) (lawful : st.Lawful p)
    (ran : (p.settleAll nodes).outcome st = (.ok 0, after)) : after.Shrunk st := by
  induction nodes generalizing st with
  | nil =>
    cases ran
    exact .refl _
  | cons n nodes ih =>
    obtain ⟨middle, head, tail⟩ := settleAll_zero ran
    have member := inside n List.mem_cons_self
    have still := (settle_keeps formed member lawful).lawful
    rw [head] at still
    have later := ih (fun m listed => inside m (List.mem_cons_of_mem _ listed)) still tail
    exact later.trans (settle_shrinks formed member lawful head)

/-- Nodes that together leave the tables alone are quiet, one by one. -/
theorem quiet_of_unchanged (formed : p.WellFormed) {nodes : List Node}
    (inside : ∀ n ∈ nodes, n ∈ p.root.preorder) (lawful : st.Lawful p) (coherent : st.Coherent p)
    (ran : (p.settleAll nodes).outcome st = (.ok 0, after)) (same : after.tables = st.tables) :
    (∀ n ∈ nodes, p.Quiet st.tables n) ∧ after.Coherent p := by
  induction nodes generalizing st with
  | nil =>
    cases ran
    exact ⟨fun n none => (List.not_mem_nil none).elim, coherent⟩
  | cons n nodes ih =>
    obtain ⟨middle, head, tail⟩ := settleAll_zero ran
    have member := inside n List.mem_cons_self
    have others : ∀ m ∈ nodes, m ∈ p.root.preorder :=
      fun m listed => inside m (List.mem_cons_of_mem _ listed)
    have still := (settle_keeps formed member lawful).lawful
    rw [head] at still
    have between : middle.tables = st.tables :=
      (settleAll_shrinks formed others still tail).eq_of_returns
        (settle_shrinks formed member lawful head) same
    rcases settle_steady_or_changes formed member lawful coherent with steady | ⟨changed, _⟩
    · have kept := steady.coherent
      rw [head] at kept
      obtain ⟨rest, last⟩ := ih others still kept tail (same.trans between.symm)
      refine ⟨?_, last⟩
      intro m listed
      rcases List.mem_cons.mp listed with rfl | listed
      · exact steady.outcome_anew head
      · rw [← between]
        exact rest m listed
    · rw [head] at changed
      exact absurd between changed

theorem settleAll_of_quiet (formed : p.WellFormed) {nodes : List Node}
    (inside : ∀ n ∈ nodes, n ∈ p.root.preorder) (lawful : st.Lawful p) (coherent : st.Coherent p)
    (quiet : ∀ n ∈ nodes, p.Quiet st.tables n) :
    ∃ after, (p.settleAll nodes).outcome st = (.ok 0, after) ∧ after.tables = st.tables ∧
      after.Lawful p ∧ after.Coherent p := by
  induction nodes generalizing st with
  | nil => exact ⟨st, rfl, rfl, lawful, coherent⟩
  | cons n nodes ih =>
    have member := inside n List.mem_cons_self
    have silent : (p.settle n).outcome (.bare st.tables) = (.ok false, .bare st.tables) :=
      quiet n List.mem_cons_self
    have steady : Steady p (p.settle n) st := by
      rcases settle_steady_or_changes formed member lawful coherent with steady | ⟨_, changed⟩
      · exact steady
      · rw [silent] at changed
        exact absurd rfl changed
    have head : (p.settle n).outcome st = (.ok false, ((p.settle n).outcome st).2) :=
      Prod.ext (by rw [steady.answer, silent]) rfl
    obtain ⟨after, tail, tables, still, kept⟩ := ih
      (fun m listed => inside m (List.mem_cons_of_mem _ listed))
      (settle_keeps formed member lawful).lawful steady.coherent
      (fun m listed => steady.tables.symm ▸ quiet m (List.mem_cons_of_mem _ listed))
    exact ⟨after, settleAll_cons_of head tail, tables.trans steady.tables, still, kept⟩

/-- A node that reports no change but changes the tables discards a type. -/
theorem discards_of_changed (formed : p.WellFormed) {node : Node} (member : node ∈ p.root.preorder)
    (lawful : st.Lawful p) (coherent : st.Coherent p)
    (ran : (p.settle node).outcome st = (.ok false, after)) (changed : after.tables ≠ st.tables) :
    p.Discards st.tables node := by
  by_cases overturns : ∃ f b d, p.Overturns st node f b d
  · obtain ⟨f, b, d, overturns⟩ := overturns
    obtain ⟨_, _, _, _, ⟨refused, _⟩ | ⟨_, _, _, entered⟩⟩ :=
      outcome_overturned formed member lawful overturns
    · exact ⟨f, b, d, overturns.anew formed member lawful coherent,
        (too_deep_iff formed member overturns).mp refused⟩
    · rw [ran] at entered
      cases entered
  · obtain ⟨accepted, learns⟩ := settle_learns formed member lawful
      fun f b d overturned => overturns ⟨f, b, d, overturned⟩
    have none : false = accepted := learns.answer false (by rw [ran])
    have same := learns.quiet none.symm
    rw [ran] at same
    exact absurd same changed

theorem unchanged_of_no_discard (formed : p.WellFormed) {nodes : List Node}
    (inside : ∀ n ∈ nodes, n ∈ p.root.preorder) (lawful : st.Lawful p) (coherent : st.Coherent p)
    (ran : (p.settleAll nodes).outcome st = (.ok 0, after))
    (none : ∀ n ∈ nodes, ¬ p.Discards st.tables n) : after.tables = st.tables := by
  induction nodes generalizing st with
  | nil =>
    cases ran
    rfl
  | cons n nodes ih =>
    obtain ⟨middle, head, tail⟩ := settleAll_zero ran
    have member := inside n List.mem_cons_self
    rcases settle_steady_or_changes formed member lawful coherent with steady | ⟨changed, _⟩
    · have tables := steady.tables
      have kept := steady.coherent
      have still := (settle_keeps formed member lawful).lawful
      rw [head] at tables kept still
      rw [← tables]
      refine ih (fun m listed => inside m (List.mem_cons_of_mem _ listed)) still kept tail ?_
      rw [tables]
      exact fun m listed => none m (List.mem_cons_of_mem _ listed)
    · rw [head] at changed
      exact absurd (discards_of_changed formed member lawful coherent head changed)
        (none n List.mem_cons_self)

def asked (p : Program) (st : State) (q : Query) : State := ((q.ask p.toEnvironment).outcome st).2

/-- The states that questions and runs of inference lead to, failing ones included. -/
inductive Reached (p : Program) : State → Prop where
  | start : Reached p p.start
  | asked {st : State} {q : Query} :
      Reached p st → q.node ∈ p.root.preorder → Reached p (p.asked st q)
  | inferred {st : State} : Reached p st → Reached p (p.infer.outcome st).2

theorem Reached.lawful (formed : p.WellFormed) (reached : p.Reached st) : st.Lawful p := by
  induction reached with
  | start => exact p.start_lawful
  | asked _ inside ih => exact ((Query.ask_consults _ inside).reads formed _ ih).lawful
  | inferred _ ih => exact infer_lawful formed ih

theorem asked_keeps (formed : p.WellFormed) {q : Query} (inside : q.node ∈ p.root.preorder)
    (lawful : st.Lawful p) (coherent : st.Coherent p) :
    (p.asked st q).tables = st.tables ∧ (p.asked st q).Lawful p ∧ (p.asked st q).Coherent p := by
  have consults : Consults Canonical p.toEnvironment (· ∈ p.root.preorder) (fun _ => True)
      (q.ask p.toEnvironment) := q.ask_consults inside
  have reads := consults.reads formed st lawful
  exact ⟨reads.tables, reads.lawful, (consults.renews formed st lawful coherent).2⟩

theorem asked_all (formed : p.WellFormed) (queries : List Query)
    (inside : ∀ q ∈ queries, q.node ∈ p.root.preorder) (lawful : st.Lawful p)
    (coherent : st.Coherent p) :
    (queries.foldl p.asked st).tables = st.tables ∧ (queries.foldl p.asked st).Lawful p ∧
      (queries.foldl p.asked st).Coherent p := by
  induction queries generalizing st with
  | nil => exact ⟨rfl, lawful, coherent⟩
  | cons q queries ih =>
    obtain ⟨same, asked, remembered⟩ :=
      asked_keeps formed (inside q List.mem_cons_self) lawful coherent
    obtain ⟨tables, still, kept⟩ := ih
      (fun r listed => inside r (List.mem_cons_of_mem _ listed)) asked remembered
    exact ⟨tables.trans same, still, kept⟩

/-- Where all nodes are quiet, inference returns after one pass and changes no table. -/
theorem infer_of_quiet (formed : p.WellFormed) (lawful : st.Lawful p) (coherent : st.Coherent p)
    (quiet : ∀ n ∈ p.root.descendants, p.Quiet st.tables n) :
    ∃ again, p.infer.outcome st = (.ok 1, again) ∧ again.tables = st.tables := by
  have upward : ∀ n ∈ p.root.descendantsUp, n ∈ p.root.descendants :=
    fun n member => p.root.descendantsUp_perm.mem_iff.mp member
  obtain ⟨seeded, seed, tables, still, _⟩ := settleAll_of_quiet formed
    (fun n member => below_root n (upward n member)) lawful coherent
    fun n member => quiet n (upward n member)
  have began : (p.paced 0).outcome st = (.ok (), seeded) := by
    rw [paced, InferM.outcome_bind_ok seed]
    rfl
  have fresh : (p.refreshed seeded).tables = st.tables := (p.refreshed_tables seeded).trans tables
  obtain ⟨after, pass, same, _⟩ := settleAll_of_quiet formed below_root (refreshed_lawful still)
    (refreshed_coherent formed still) (fresh ▸ quiet)
  exact ⟨_, infer_of_first_quiet began pass, same.trans fresh⟩

/-- Inference that returns ends with a pass that counts no changes, and that pass only drops types.
It leaves the tables as they were exactly if no node discards a type under them. -/
theorem last_pass_unchanged_iff {settings : Settings} {tree : Json}
    (accepted : ofJson settings tree = .ok p) (reached : p.Reached st) {n : Nat} {final : State}
    (ran : p.infer.outcome st = (.ok n, final)) :
    ∃ k before last, n = k + 1 ∧ (p.paced k).outcome st = (.ok (), before) ∧
      p.pass.outcome before = (.ok 0, last) ∧ final.tables = last.tables ∧
      (∀ s, (last.table s).Sublist (before.table s)) ∧
      (last.tables = before.tables ↔
        ∀ node ∈ p.root.descendants, ¬ p.Discards before.tables node) := by
  have formed := wellFormed_of_ofJson accepted
  have lawful := reached.lawful formed
  obtain ⟨k, before, last, count, began, pass, rfl⟩ := infer_ok formed lawful ran
  have still := (paced_keeps formed lawful k).lawful
  rw [began] at still
  have fresh := refreshed_lawful still
  have coherent := refreshed_coherent formed still
  have tables := p.refreshed_tables before
  have shrunk := settleAll_shrinks formed below_root fresh pass
  refine ⟨k, before, last, count, began, pass, rfl, ?_, ?_, ?_⟩
  · intro s
    exact State.table_congr tables s ▸ shrunk.table s
  · rintro same node below ⟨f, b, d, overturns, _⟩
    have quiet := (quiet_of_unchanged formed below_root fresh coherent pass
      (same.trans tables.symm)).1 node below
    rw [tables] at quiet
    have changed := tables_ne_of_overturns formed (below_root node below) still.bare overturns
    rw [show (p.settle node).outcome (.bare before.tables) = (.ok false, .bare before.tables)
      from quiet] at changed
    exact changed rfl
  · intro none
    rw [← tables] at none ⊢
    exact unchanged_of_no_discard formed below_root fresh coherent pass none

open Raw in
/-- In `v = 1; function f() { return "a"[v]; return w; } v = "s"; w = [[[[1]]]];` the type of `f` is
`func<string>` until `v` has two types, and too deep to be recorded from then on. -/
def forgetting : Json :=
  program [
    assignment "v" (literal (.int 1)),
    function "f" [element (literal (.text "a")) (identifier "v"), identifier "w"],
    assignment "v" (literal (.text "s")),
    assignment "w" (array [array [array [array [literal (.int 1)]]]])]

theorem forgetting_changes : ∃ p, ofJson .standard forgetting = .ok p ∧
    ∃ n, (p.infer.outcome p.start).1 = .ok n ∧
      n = 1 ∧ (p.infer.outcome p.start).2.tables ≠ p.tablesAt p.start 0 := by
  decide +kernel

theorem forgetting_discards : ∃ p, ofJson .standard forgetting = .ok p ∧ p.Reached p.start ∧
    ∃ final, p.infer.outcome p.start = (.ok 1, final) ∧
      ∃ node ∈ p.root.descendants, p.Discards (p.tablesAt p.start 0) node := by
  obtain ⟨p, accepted, n, returned, rfl, changed⟩ := forgetting_changes
  have ran : p.infer.outcome p.start = (.ok 1, (p.infer.outcome p.start).2) := Prod.ext returned rfl
  obtain ⟨k, before, last, one, began, _, same, _, unchanged⟩ :=
    last_pass_unchanged_iff accepted .start ran
  obtain rfl : k = 0 := by omega
  have tables : p.tablesAt p.start 0 = before.tables := by
    unfold tablesAt
    rw [began]
  rw [same, tables, ne_eq, unchanged] at changed
  refine ⟨p, accepted, .start, _, ran, ?_⟩
  rw [tables]
  push Not at changed
  exact changed

theorem last_pass_may_change :
    ¬ ∀ settings tree p k final, ofJson settings tree = .ok p →
      p.infer.outcome p.start = (.ok (k + 1), final) → final.tables = p.tablesAt p.start k := by
  intro unchanged
  obtain ⟨p, accepted, n, returned, rfl, changed⟩ := forgetting_changes
  exact changed (unchanged _ _ p 0 _ accepted (Prod.ext returned rfl))

/-- Once the last pass has left the tables alone, inference runs a second time without effect,
whatever was asked in between. -/
theorem infer_idempotent {settings : Settings} {tree : Json}
    (accepted : ofJson settings tree = .ok p) (reached : p.Reached st) {k : Nat} {final : State}
    (ran : p.infer.outcome st = (.ok (k + 1), final)) (steady : final.tables = p.tablesAt st k)
    (queries : List Query) (inside : ∀ q ∈ queries, q.node ∈ p.root.preorder) :
    ∃ again, p.infer.outcome (queries.foldl p.asked final) = (.ok 1, again) ∧
      (queries.foldl p.asked final).tables = final.tables ∧ again.tables = final.tables := by
  have formed := wellFormed_of_ofJson accepted
  have lawful := reached.lawful formed
  obtain ⟨_, before, last, count, began, pass, rfl⟩ := infer_ok formed lawful ran
  cases count
  have still := (paced_keeps formed lawful k).lawful
  unfold tablesAt at steady
  rw [began] at still steady
  have fresh := refreshed_lawful still
  have tables := p.refreshed_tables before
  obtain ⟨quiet, coherent⟩ := quiet_of_unchanged formed below_root fresh
    (refreshed_coherent formed still) pass (steady.trans tables.symm)
  have kept := (settleAll_keeps formed below_root fresh).lawful
  rw [← outcome_pass, pass] at kept
  obtain ⟨same, asked, remembered⟩ := asked_all formed queries inside
    ((kept.record (.passed (k + 1) 0)).record (.converged (k + 1) p.nodeCount)) coherent
  have settled : (queries.foldl p.asked _).tables = (p.refreshed before).tables :=
    same.trans (steady.trans tables.symm)
  obtain ⟨again, second, unchanged⟩ := infer_of_quiet formed asked remembered (settled ▸ quiet)
  exact ⟨again, second, same, unchanged.trans same⟩

open Raw in
/-- In `y = f(); function f() { return x; } x = 1; ?z;` the last operator is not a known one, so
that its type cannot be asked for. -/
def answering : Json :=
  program [
    assignment "y" (call (identifier "f")),
    function "f" [identifier "x"],
    assignment "x" (literal (.int 1)),
    expression (node "UnaryExpression" [("operator", .text "?"), ("argument", identifier "z")])]

def questions (p : Program) : List Query :=
  p.root.preorder.map .type ++ p.root.preorder.map (.listing true)

theorem node_mem_of_questions {q : Query} (asked : q ∈ p.questions) : q.node ∈ p.root.preorder := by
  rcases List.mem_append.mp asked with asked | asked
  · obtain ⟨n, member, rfl⟩ := List.mem_map.mp asked
    exact member
  · obtain ⟨n, member, rfl⟩ := List.mem_map.mp asked
    exact member

theorem answering_idempotent : ∃ p, ofJson .standard answering = .ok p ∧ p.Reached p.start ∧
    ∃ final, p.infer.outcome p.start = (.ok 3, final) ∧ final.tables = p.tablesAt p.start 2 ∧
      (∃ q ∈ p.questions, ((q.ask p.toEnvironment).outcome final).1.isOk = false) ∧
      ∃ again, p.infer.outcome (p.questions.foldl p.asked final) = (.ok 1, again) ∧
        again.tables = final.tables := by
  have run : ∃ p, ofJson .standard answering = .ok p ∧
      ∃ n, (p.infer.outcome p.start).1 = .ok n ∧ n = 3 ∧
        (p.infer.outcome p.start).2.tables = p.tablesAt p.start 2 ∧
        ∃ q ∈ p.questions,
          ((q.ask p.toEnvironment).outcome (p.infer.outcome p.start).2).1.isOk = false := by
    decide +kernel
  obtain ⟨p, accepted, _, returned, rfl, steady, fails⟩ := run
  have ran : p.infer.outcome p.start = (.ok 3, (p.infer.outcome p.start).2) := Prod.ext returned rfl
  obtain ⟨again, second, _, same⟩ := infer_idempotent accepted .start ran steady p.questions
    fun q asked => node_mem_of_questions asked
  exact ⟨p, accepted, .start, _, ran, steady, fails, again, second, same⟩

end Program

end ScriptTypes
