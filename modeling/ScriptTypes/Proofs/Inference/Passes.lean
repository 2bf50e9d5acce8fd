import ScriptTypes.Inference.Run
import ScriptTypes.Proofs.Inference.Steadiness

/-! A pass forgets what is remembered below the root, so it starts from a coherent state and depends
on the tables alone. `Program.paced` runs passes without a limit; a run of inference is such a
sequence of passes up to the first one without changes, cut off at the limit. -/

namespace ScriptTypes

namespace Keeps

variable {p : Program} {α β : Type} {m : InferM α} {f : α → InferM β} {st : State}

theorem pure (a : α) (lawful : st.Lawful p) : Keeps p (Pure.pure a) st where
  lawful := lawful
  size := rfl
  failure f same := by cases same

theorem bind (first : Keeps p m st)
    (next : ∀ a middle, m.outcome st = (.ok a, middle) → middle.Lawful p → Keeps p (f a) middle) :
    Keeps p (m >>= f) st := by
  rcases ran : m.outcome st with ⟨failure | a, middle⟩
  · have whole := InferM.outcome_bind_error (f := f) ran
    constructor <;> rw [whole]
    · simpa [ran] using first.lawful
    · simpa [ran] using first.size
    · intro g same
      cases same
      exact first.failure failure (by rw [ran])
  · have whole := InferM.outcome_bind_ok (f := f) ran
    have later := next a middle ran (by simpa [ran] using first.lawful)
    constructor <;> rw [whole]
    · exact later.lawful
    · rw [later.size]
      simpa [ran] using first.size
    · exact later.failure

end Keeps

namespace Program

variable {p : Program} {st after : State} {nodes : List Node}

theorem settleAll_cons_ok {n : Node} {total : Nat}
    (ran : (p.settleAll (n :: nodes)).outcome st = (.ok total, after)) :
    ∃ changed middle rest, (p.settle n).outcome st = (.ok changed, middle) ∧
      (p.settleAll nodes).outcome middle = (.ok rest, after) ∧
      total = if changed then rest + 1 else rest := by
  rw [settleAll] at ran
  obtain ⟨changed, middle, head, ran⟩ := InferM.outcome_bind_eq_ok ran
  obtain ⟨rest, last, tail, ran⟩ := InferM.outcome_bind_eq_ok ran
  cases ran
  exact ⟨changed, middle, rest, head, tail, rfl⟩

theorem settleAll_cons_of {n : Node} {changed : Bool} {middle : State} {rest : Nat}
    (head : (p.settle n).outcome st = (.ok changed, middle))
    (tail : (p.settleAll nodes).outcome middle = (.ok rest, after)) :
    (p.settleAll (n :: nodes)).outcome st = (.ok (if changed then rest + 1 else rest), after) := by
  rw [settleAll, InferM.outcome_bind_ok head, InferM.outcome_bind_ok tail]
  rfl

theorem settleAll_keeps (formed : p.WellFormed) (inside : ∀ n ∈ nodes, n ∈ p.root.preorder)
    (lawful : st.Lawful p) : Keeps p (p.settleAll nodes) st := by
  induction nodes generalizing st with
  | nil => exact .pure 0 lawful
  | cons n nodes ih =>
    rw [settleAll]
    refine (settle_keeps formed (inside n List.mem_cons_self) lawful).bind ?_
    intro changed middle _ still
    refine (ih (fun m member => inside m (List.mem_cons_of_mem _ member)) still).bind ?_
    intro rest last _ kept
    exact .pure _ kept

theorem settleAll_matched (formed : p.WellFormed) (inside : ∀ n ∈ nodes, n ∈ p.root.descendants)
    {left right : State} (lawful : left.Lawful p)
    (alike : left.Alike (· ∈ p.root.descendants) right) :
    Matched (· ∈ p.root.descendants) ((p.settleAll nodes).outcome left)
      ((p.settleAll nodes).outcome right) := by
  induction nodes generalizing left right with
  | nil => exact ⟨rfl, alike⟩
  | cons n nodes ih =>
    have below := inside n List.mem_cons_self
    have keeps := settle_keeps formed (Node.mem_preorder.mpr (.inr below)) lawful
    rw [settleAll]
    refine (settle_matched formed below lawful alike).bind ?_
    intro changed middle ran other like
    have still : middle.Lawful p := by simpa [ran] using keeps.lawful
    refine (ih (fun m member => inside m (List.mem_cons_of_mem _ member)) still like).bind ?_
    intro rest last _ final kept
    exact ⟨rfl, kept⟩

theorem forgetAll_tables (nodes : List Node) (st : State) :
    (forgetAll nodes st).tables = st.tables ∧
      (forgetAll nodes st).types.size = st.types.size := by
  induction nodes generalizing st with
  | nil => exact ⟨rfl, rfl⟩
  | cons n nodes ih =>
    obtain ⟨tables, size⟩ := ih (st.forget n.id)
    refine ⟨tables, size.trans ?_⟩
    exact Array.size_setIfInBounds

theorem typeAt_forgetAll (nodes : List Node) (st : State) (id : NodeId) :
    (forgetAll nodes st).typeAt id = if id ∈ nodes.map Node.id then none else st.typeAt id := by
  induction nodes generalizing st with
  | nil => rfl
  | cons n nodes ih =>
    change (forgetAll nodes (st.forget n.id)).typeAt id = _
    rw [ih, State.typeAt_forget]
    by_cases same : id = n.id
    · simp [same]
    · simp [same]

theorem forgetAll_lawful (nodes : List Node) (lawful : st.Lawful p) :
    (forgetAll nodes st).Lawful p where
  size := by rw [(forgetAll_tables nodes st).1, lawful.size]
  tables := by
    rw [(forgetAll_tables nodes st).1]
    exact lawful.tables
  types n member d remembered := by
    rw [typeAt_forgetAll] at remembered
    split at remembered
    · cases remembered
    · exact lawful.types n member d remembered

def refreshed (p : Program) (st : State) : State := forgetAll p.root.descendants st

theorem outcome_pass (p : Program) (st : State) :
    p.pass.outcome st = (p.settleAll p.root.descendants).outcome (p.refreshed st) := rfl

theorem refreshed_tables (p : Program) (st : State) : (p.refreshed st).tables = st.tables :=
  (forgetAll_tables _ st).1

theorem typeAt_refreshed {n : Node} (below : n ∈ p.root.descendants) :
    (p.refreshed st).typeAt n.id = none := by
  unfold refreshed
  rw [typeAt_forgetAll, if_pos (List.mem_map.mpr ⟨n, below, rfl⟩)]

theorem refreshed_lawful (lawful : st.Lawful p) : (p.refreshed st).Lawful p :=
  forgetAll_lawful _ lawful

/-- Once all below the root is forgotten, only the root is remembered, which has no value. -/
theorem refreshed_coherent (formed : p.WellFormed) (lawful : st.Lawful p) :
    (p.refreshed st).Coherent p := by
  intro n member d remembered
  rcases Node.mem_preorder.mp member with rfl | below
  -- A pass never forgets the root, but the type of a statement does not depend on the tables.
  · have form := formed.root_form
    rw [((refreshed_lawful lawful).types _ member d remembered).2 .program form]
    unfold Node.freshType
    rw [Node.typeOf_other (by rw [form]; intro _ _ other; cases other), outcome_remembering,
      State.typeAt_bare]
    change p.root.head.form = _ at form
    simp only [rule, form]
    rfl
  · rw [typeAt_refreshed below] at remembered
    cases remembered

theorem refreshed_alike {left right : State} (tables : left.tables = right.tables)
    (size : left.types.size = right.types.size) :
    (p.refreshed left).Alike (· ∈ p.root.descendants) (p.refreshed right) where
  tables := by rw [refreshed_tables, refreshed_tables, tables]
  size := by
    unfold refreshed
    rw [(forgetAll_tables _ left).2, (forgetAll_tables _ right).2, size]
  types n below := by rw [typeAt_refreshed below, typeAt_refreshed below]

theorem below_root : ∀ n ∈ p.root.descendants, n ∈ p.root.preorder :=
  fun _ below => Node.mem_preorder.mpr (.inr below)

theorem pass_keeps (formed : p.WellFormed) (lawful : st.Lawful p) : Keeps p p.pass st := by
  have keeps := settleAll_keeps formed below_root (refreshed_lawful lawful)
  have size := (forgetAll_tables p.root.descendants st).2
  exact ⟨keeps.lawful, keeps.size.trans size, keeps.failure⟩

/-- What a pass does depends on the tables alone. -/
theorem pass_matched (formed : p.WellFormed) {left right : State} (lawful : left.Lawful p)
    (tables : left.tables = right.tables) (size : left.types.size = right.types.size) :
    Matched (· ∈ p.root.descendants) (p.pass.outcome left) (p.pass.outcome right) :=
  settleAll_matched formed (fun _ below => below) (refreshed_lawful lawful)
    (refreshed_alike tables size)

/-- The seeding round and this many passes after it, however few changes they make. -/
def paced (p : Program) : Nat → InferM Unit
  | 0 => do
    let _ ← p.settleAll p.root.descendantsUp
    return ()
  | k + 1 => do
    p.paced k
    let changes ← p.pass
    modify (State.record (.passed (k + 1) changes))

/-- The tables after the seeding round and `k` passes. -/
def tablesAt (p : Program) (st : State) (k : Nat) : Array TypeTable :=
  ((p.paced k).outcome st).2.tables

/-- The pass after `k` others is completed and makes changes. -/
def Changes (p : Program) (st : State) (k : Nat) : Prop :=
  ∃ before changes after, (p.paced k).outcome st = (.ok (), before) ∧
    p.pass.outcome before = (.ok changes, after) ∧ changes ≠ 0

theorem changes_iff {k : Nat} : p.Changes st k ↔
    ∃ changes, ((p.paced k >>= fun _ => p.pass).outcome st).1 = .ok changes ∧ changes ≠ 0 := by
  rcases start : (p.paced k).outcome st with ⟨failure | ⟨⟩, before⟩
  · rw [InferM.outcome_bind_error start]
    constructor
    · rintro ⟨_, _, _, reached, _⟩
      rw [start] at reached
      cases reached
    · rintro ⟨_, failed, _⟩
      cases failed
  · rw [InferM.outcome_bind_ok start]
    constructor
    · rintro ⟨_, changes, _, reached, pass, some⟩
      rw [start] at reached
      cases reached
      exact ⟨changes, by rw [pass], some⟩
    · rintro ⟨changes, pass, some⟩
      exact ⟨before, changes, _, start, Prod.ext pass rfl, some⟩

instance (k : Nat) : Decidable (p.Changes st k) := decidable_of_iff _ changes_iff.symm

/-- Inference ends with the report that the pass limit is reached. -/
def Stalls (p : Program) (st : State) : Prop :=
  ∃ failure, (p.infer.outcome st).1 = .error failure ∧ failure.isStall = true

theorem paced_succ_of {k changes : Nat} {before : State}
    (ran : (p.paced k).outcome st = (.ok (), before))
    (pass : p.pass.outcome before = (.ok changes, after)) :
    (p.paced (k + 1)).outcome st = (.ok (), after.record (.passed (k + 1) changes)) := by
  rw [paced, InferM.outcome_bind_ok ran, InferM.outcome_bind_ok pass]
  rfl

theorem paced_keeps (formed : p.WellFormed) (lawful : st.Lawful p) (k : Nat) :
    Keeps p (p.paced k) st := by
  induction k with
  | zero =>
    have inside : ∀ n ∈ p.root.descendantsUp, n ∈ p.root.preorder :=
      fun n member => below_root n (p.root.descendantsUp_perm.mem_iff.mp member)
    rw [paced]
    refine (settleAll_keeps formed inside lawful).bind ?_
    intro _ after _ kept
    exact .pure () kept
  | succ k ih =>
    rw [paced]
    refine ih.bind ?_
    intro _ before _ still
    refine (pass_keeps formed still).bind ?_
    intro changes after _ kept
    exact ⟨kept.record _, rfl, fun f same => by cases same⟩

theorem passes_succ_of {left done changes : Nat} (pass : p.pass.outcome st = (.ok changes, after)) :
    (p.passes (left + 1) done).outcome st =
      if changes = 0 then (.ok (done + 1), after.record (.passed (done + 1) changes))
      else (p.passes left (done + 1)).outcome (after.record (.passed (done + 1) changes)) := by
  rw [passes, InferM.outcome_bind_ok pass, InferM.outcome_bind, InferM.outcome_modify]
  dsimp only
  split <;> rfl

/-- Where the passes after `done` of them lead: to one without changes, to one that fails, or to the
limit. -/
theorem passes_cases {start : State} (left : Nat) {done : Nat}
    (began : (p.paced done).outcome start = (.ok (), st)) :
    (∃ k before after, k < done + left ∧ (p.paced k).outcome start = (.ok (), before) ∧
      p.pass.outcome before = (.ok 0, after) ∧
      (p.passes left done).outcome st = (.ok (k + 1), after.record (.passed (k + 1) 0))) ∨
    (∃ k before failure after, k < done + left ∧ (p.paced k).outcome start = (.ok (), before) ∧
      p.pass.outcome before = (.error failure, after) ∧
      ((p.passes left done).outcome st).1 = .error failure) ∨
    ((∀ k, done ≤ k → k < done + left → p.Changes start k) ∧
      ∃ failure, ((p.passes left done).outcome st).1 = .error failure ∧ failure.isStall = true) := by
  induction left generalizing done st with
  | zero =>
    refine .inr (.inr ⟨?_, ⟨.about (.notConverged done p.passLimit) .null, rfl, rfl⟩⟩)
    intro k least most
    omega
  | succ left ih =>
    rcases pass : p.pass.outcome st with ⟨failure | changes, after⟩
    · refine .inr (.inl ⟨done, st, failure, after, by omega, began, pass, ?_⟩)
      rw [passes, InferM.outcome_bind_error pass]
    · rw [passes_succ_of pass]
      by_cases none : changes = 0
      · subst none
        exact .inl ⟨done, st, after, by omega, began, pass, rfl⟩
      · rw [if_neg none]
        rcases ih (paced_succ_of began pass) with
          ⟨k, before, last, most, reached, quiet, ran⟩ |
          ⟨k, before, failure, last, most, reached, failed, ran⟩ | ⟨changing, stalled⟩
        · exact .inl ⟨k, before, last, by omega, reached, quiet, ran⟩
        · exact .inr (.inl ⟨k, before, failure, last, by omega, reached, failed, ran⟩)
        · refine .inr (.inr ⟨?_, stalled⟩)
          intro k least most
          rcases Nat.eq_or_lt_of_le least with rfl | later
          · exact ⟨st, changes, after, began, pass, none⟩
          · exact changing k later (by omega)

theorem passLimit_pos (p : Program) : 0 < p.passLimit :=
  Nat.lt_of_lt_of_le p.settings.minPasses_pos (Nat.le_max_left _ _)

theorem infer_eq (p : Program) :
    p.infer = (do
      p.paced 0
      let passes ← p.passes p.passLimit 0
      modify (State.record (.converged passes p.nodeCount))
      return passes) := by
  have seeds : discard (p.settleAll p.root.descendantsUp) = p.paced 0 := by
    rw [Functor.discard, map_const, paced]
    exact map_eq_pure_bind _ _
  unfold infer
  rw [seeds]

/-- Where inference leads: to a pass without changes, to a failure that is not the pass limit, or
through changes to the limit. -/
theorem infer_cases (formed : p.WellFormed) (lawful : st.Lawful p) :
    (∃ k before after, k < p.passLimit ∧ (p.paced k).outcome st = (.ok (), before) ∧
      p.pass.outcome before = (.ok 0, after) ∧
      p.infer.outcome st = (.ok (k + 1),
        (after.record (.passed (k + 1) 0)).record (.converged (k + 1) p.nodeCount))) ∨
    (∃ k failure, k < p.passLimit ∧ ¬ p.Changes st k ∧
      (p.infer.outcome st).1 = .error failure ∧ failure.isStall = false) ∨
    ((∀ k < p.passLimit, p.Changes st k) ∧ p.Stalls st) := by
  rcases seed : (p.paced 0).outcome st with ⟨failure | ⟨⟩, seeded⟩
  · refine .inr (.inl ⟨0, failure, p.passLimit_pos, ?_, ?_, ?_⟩)
    · rintro ⟨before, changes, after, reached, _⟩
      rw [seed] at reached
      cases reached
    · rw [infer_eq, InferM.outcome_bind_error seed]
    · exact (paced_keeps formed lawful 0).failure failure (by rw [seed])
  · have whole := InferM.outcome_bind_ok (f := fun _ => do
      let passes ← p.passes p.passLimit 0
      modify (State.record (.converged passes p.nodeCount))
      return passes) seed
    rw [← infer_eq] at whole
    rcases passes_cases p.passLimit seed with ⟨k, before, after, most, reached, quiet, ran⟩ |
        ⟨k, before, failure, after, most, reached, failed, ran⟩ | ⟨changing, failure, ran, stall⟩
    · refine .inl ⟨k, before, after, by omega, reached, quiet, ?_⟩
      rw [whole, InferM.outcome_bind_ok ran]
      rfl
    · refine .inr (.inl ⟨k, failure, by omega, ?_, ?_, ?_⟩)
      · rintro ⟨before', changes, after', reached', completed, _⟩
        rw [reached] at reached'
        cases reached'
        rw [failed] at completed
        cases completed
      · rcases passed : (p.passes p.passLimit 0).outcome seeded with ⟨answer, last⟩
        rw [passed] at ran
        cases ran
        rw [whole, InferM.outcome_bind_error passed]
      · have still := (paced_keeps formed lawful k).lawful
        rw [reached] at still
        exact (pass_keeps formed still).failure failure (by rw [failed])
    · refine .inr (.inr ⟨fun k most => changing k (Nat.zero_le _) (by omega), failure, ?_, stall⟩)
      rcases passed : (p.passes p.passLimit 0).outcome seeded with ⟨answer, last⟩
      rw [passed] at ran
      cases ran
      rw [whole, InferM.outcome_bind_error passed]

/-- Inference reaches the limit exactly if all passes up to it make changes. -/
theorem stalls_iff_changes (formed : p.WellFormed) (lawful : st.Lawful p) :
    p.Stalls st ↔ ∀ k < p.passLimit, p.Changes st k := by
  rcases infer_cases formed lawful with ⟨k, before, after, most, reached, quiet, ran⟩ |
      ⟨k, failure, most, steady, ran, other⟩ | ⟨changing, stalls⟩
  · constructor
    · rintro ⟨failure, failed, _⟩
      rw [ran] at failed
      cases failed
    · intro changing
      obtain ⟨before', changes, after', reached', completed, some⟩ := changing k most
      rw [reached] at reached'
      cases reached'
      rw [quiet] at completed
      cases completed
      exact absurd rfl some
  · constructor
    · rintro ⟨failure', failed, stall⟩
      rw [ran] at failed
      cases failed
      rw [other] at stall
      cases stall
    · intro changing
      exact absurd (changing k most) steady
  · exact ⟨fun _ => changing, fun _ => stalls⟩

/-- An inference that returns ends with a pass without changes. -/
theorem infer_ok {n : Nat} (formed : p.WellFormed) (lawful : st.Lawful p)
    (ran : p.infer.outcome st = (.ok n, after)) :
    ∃ k before last, n = k + 1 ∧ (p.paced k).outcome st = (.ok (), before) ∧
      p.pass.outcome before = (.ok 0, last) ∧
      after = (last.record (.passed n 0)).record (.converged n p.nodeCount) := by
  rcases infer_cases formed lawful with ⟨k, before, last, _, reached, quiet, returned⟩ |
      ⟨k, failure, _, _, failed, _⟩ | ⟨_, failure, failed, _⟩
  · rw [ran] at returned
    cases returned
    exact ⟨k, before, last, rfl, reached, quiet, rfl⟩
  · rw [ran] at failed
    cases failed
  · rw [ran] at failed
    cases failed

theorem infer_of_first_quiet {seeded : State} (seed : (p.paced 0).outcome st = (.ok (), seeded))
    (quiet : p.pass.outcome seeded = (.ok 0, after)) :
    p.infer.outcome st =
      (.ok 1, (after.record (.passed 1 0)).record (.converged 1 p.nodeCount)) := by
  obtain ⟨left, limit⟩ : ∃ left, p.passLimit = left + 1 :=
    Nat.exists_eq_add_one.mpr p.passLimit_pos
  have ran : (p.passes p.passLimit 0).outcome seeded = (.ok 1, after.record (.passed 1 0)) := by
    rw [limit, passes_succ_of quiet, if_pos rfl]
  rw [infer_eq, InferM.outcome_bind_ok seed, InferM.outcome_bind_ok ran]
  rfl

theorem start_lawful (p : Program) : p.start.Lawful p where
  size := Array.size_replicate
  tables t member := by
    rw [(Array.mem_replicate.mp member).2]
    exact .nil
  types n _ d remembered := by
    have nothing : p.start.typeAt n.id = none := by
      unfold State.typeAt start State.start
      rw [Array.getElem?_replicate]
      split <;> rfl
    rw [nothing] at remembered
    cases remembered

theorem passes_lawful (formed : p.WellFormed) (lawful : st.Lawful p) (left done : Nat) :
    ((p.passes left done).outcome st).2.Lawful p := by
  induction left generalizing done st with
  | zero => exact lawful
  | succ left ih =>
    have still := (pass_keeps formed lawful).lawful
    rcases pass : p.pass.outcome st with ⟨failure | changes, after⟩
    · rw [pass] at still
      rw [passes, InferM.outcome_bind_error pass]
      exact still
    · rw [pass] at still
      rw [passes_succ_of pass]
      split
      · exact still.record _
      · exact ih (still.record _) (done + 1)

/-- Inference keeps a state lawful, also when it fails. -/
theorem infer_lawful (formed : p.WellFormed) (lawful : st.Lawful p) :
    (p.infer.outcome st).2.Lawful p := by
  have seeded := (paced_keeps formed lawful 0).lawful
  rw [infer_eq]
  rcases seed : (p.paced 0).outcome st with ⟨failure | ⟨⟩, after⟩
  · rw [seed] at seeded
    rw [InferM.outcome_bind_error seed]
    exact seeded
  · rw [seed] at seeded
    have passed := passes_lawful formed seeded p.passLimit 0
    rw [InferM.outcome_bind_ok seed]
    rcases ran : (p.passes p.passLimit 0).outcome after with ⟨failure | count, last⟩
    · rw [ran] at passed
      rw [InferM.outcome_bind_error ran]
      exact passed
    · rw [ran] at passed
      rw [InferM.outcome_bind_ok ran]
      exact passed.record _

end Program

end ScriptTypes
