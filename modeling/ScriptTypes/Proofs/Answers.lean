import ScriptTypes.Proofs.Fixpoint

/-! Once a pass has left all tables alone, what is remembered is what the tables give. Questions are
then answered as if each were the first and nothing were remembered, in any order and however often
they are asked. -/

namespace ScriptTypes

namespace Program

variable {p : Program} {st : State}

def typeOf (p : Program) (st : State) (n : Node) : Except Failure Descriptor :=
  ((n.typeOf p.toEnvironment).outcome st).1

def answerTo (p : Program) (st : State) (q : Query) : Except Failure Answer :=
  ((q.answer p.toEnvironment).outcome st).1

def answers (p : Program) : State → List Query → List (Except Failure Answer)
  | _, [] => []
  | st, q :: queries =>
    p.answerTo st q :: p.answers ((q.answer p.toEnvironment).outcome st).2 queries

theorem asked_eq (p : Program) (st : State) (q : Query) :
    p.asked st q = ((q.answer p.toEnvironment).outcome st).2 := by
  unfold asked
  rw [q.ask_eq, InferM.outcome_bind]
  rcases (q.answer p.toEnvironment).outcome st with ⟨_ | _, _⟩ <;> rfl

theorem typeOf_renewed (formed : p.WellFormed) (lawful : st.Lawful p) (coherent : st.Coherent p)
    {n : Node} (member : n ∈ p.root.preorder) :
    p.typeOf st n = n.freshType p.toEnvironment st.tables :=
  (typeOf_renews formed n member st lawful coherent).1

/-- In coherent states, answers depend on the tables alone. -/
theorem answerTo_renewed (formed : p.WellFormed) (lawful : st.Lawful p) (coherent : st.Coherent p)
    {q : Query} (inside : q.node ∈ p.root.preorder) :
    p.answerTo st q = p.answerTo (.bare st.tables) q :=
  ((q.answer_consults inside).renews formed st lawful coherent).1

theorem answers_renewed (formed : p.WellFormed) (queries : List Query)
    (inside : ∀ q ∈ queries, q.node ∈ p.root.preorder) (lawful : st.Lawful p)
    (coherent : st.Coherent p) :
    p.answers st queries = queries.map (p.answerTo (.bare st.tables)) := by
  induction queries generalizing st with
  | nil => rfl
  | cons q queries ih =>
    have here := inside q List.mem_cons_self
    obtain ⟨tables, still, kept⟩ := asked_keeps formed here lawful coherent
    have later := ih (fun r listed => inside r (List.mem_cons_of_mem _ listed)) still kept
    rw [answers, ← asked_eq, List.map_cons, answerTo_renewed formed lawful coherent here, later,
      tables]

theorem forgetAll_coherent (p : Program) (st : State) :
    (forgetAll p.root.preorder st).Coherent p := by
  intro n member d remembered
  rw [typeAt_forgetAll, if_pos (List.mem_map.mpr ⟨n, member, rfl⟩)] at remembered
  cases remembered

/-- What is remembered is what the tables give, and settling a node changes nothing. -/
structure AtRest (p : Program) (st : State) : Prop where
  lawful : st.Lawful p
  coherent : st.Coherent p
  quiet : ∀ n ∈ p.root.descendants, p.Quiet st.tables n

/-- Inference whose last pass leaves the tables alone comes to rest. -/
theorem atRest_of_steady (formed : p.WellFormed) (lawful : st.Lawful p) {k : Nat} {final : State}
    (ran : p.infer.outcome st = (.ok (k + 1), final)) (steady : final.tables = p.tablesAt st k) :
    p.AtRest final := by
  obtain ⟨_, before, last, count, began, pass, rfl⟩ := infer_ok formed lawful ran
  cases count
  have still := (paced_keeps formed lawful k).lawful
  unfold tablesAt at steady
  rw [began] at still steady
  have fresh := refreshed_lawful still
  have same : last.tables = (p.refreshed before).tables :=
    steady.trans (p.refreshed_tables before).symm
  obtain ⟨quiet, coherent⟩ := quiet_of_unchanged formed below_root fresh
    (refreshed_coherent formed still) pass same
  have kept := (settleAll_keeps formed below_root fresh).lawful
  rw [← outcome_pass, pass] at kept
  exact ⟨(kept.record (.passed (k + 1) 0)).record (.converged (k + 1) p.nodeCount), coherent,
    same ▸ quiet⟩

/-- Once the last pass has left the tables alone, every node has the type that it has when all types
are forgotten, which is the one derived without remembering any. Questions asked in turn are
answered as they are when all types are forgotten, and change no table. -/
theorem answers_as_if_forgotten {settings : Settings} {tree : Json}
    (accepted : ofJson settings tree = .ok p) (reached : p.Reached st) {k : Nat} {final : State}
    (ran : p.infer.outcome st = (.ok (k + 1), final)) (steady : final.tables = p.tablesAt st k) :
    (∀ n ∈ p.root.preorder,
      p.typeOf final n = p.typeOf (forgetAll p.root.preorder final) n ∧
      p.typeOf final n = n.freshType p.toEnvironment final.tables) ∧
    ∀ queries : List Query, (∀ q ∈ queries, q.node ∈ p.root.preorder) →
      p.answers final queries = queries.map (p.answerTo (forgetAll p.root.preorder final)) ∧
      (queries.foldl p.asked final).tables = final.tables := by
  have formed := wellFormed_of_ofJson accepted
  obtain ⟨lawful, coherent, _⟩ := atRest_of_steady formed (reached.lawful formed) ran steady
  have blank := forgetAll_lawful p.root.preorder lawful
  have trivially := p.forgetAll_coherent final
  have tables := (forgetAll_tables p.root.preorder final).1
  refine ⟨?_, ?_⟩
  · intro n member
    have here := typeOf_renewed formed lawful coherent member
    have there := typeOf_renewed formed blank trivially member
    exact ⟨by rw [here, there, tables], here⟩
  · intro queries inside
    refine ⟨?_, (asked_all formed queries inside lawful coherent).1⟩
    rw [answers_renewed formed queries inside lawful coherent]
    refine List.map_congr_left ?_
    intro q listed
    rw [answerTo_renewed formed blank trivially (inside q listed), tables]

theorem answering_answers : ∃ p, ofJson .standard answering = .ok p ∧ p.Reached p.start ∧
    ∃ final, p.infer.outcome p.start = (.ok 3, final) ∧ final.tables = p.tablesAt p.start 2 ∧
      (∃ n ∈ p.root.preorder, final.typeAt n.id = some .int ∧
        (p.typeOf p.start n).toOption = some .object) ∧
      (∃ q ∈ p.questions, (p.answerTo final q).isOk = false) ∧
      p.answers final (p.questions ++ p.questions.reverse) =
        (p.questions ++ p.questions.reverse).map
          (p.answerTo (forgetAll p.root.preorder final)) := by
  have run : ∃ p, ofJson .standard answering = .ok p ∧
      ∃ n, (p.infer.outcome p.start).1 = .ok n ∧ n = 3 ∧
        (p.infer.outcome p.start).2.tables = p.tablesAt p.start 2 ∧
        (∃ n ∈ p.root.preorder, (p.infer.outcome p.start).2.typeAt n.id = some .int ∧
          (p.typeOf p.start n).toOption = some .object) ∧
        ∃ q ∈ p.questions, (p.answerTo (p.infer.outcome p.start).2 q).isOk = false := by
    decide +kernel
  obtain ⟨p, accepted, _, returned, rfl, steady, learned, fails⟩ := run
  have ran : p.infer.outcome p.start = (.ok 3, (p.infer.outcome p.start).2) := Prod.ext returned rfl
  obtain ⟨_, answered⟩ := answers_as_if_forgotten accepted .start ran steady
  refine ⟨p, accepted, .start, _, ran, steady, learned, fails, (answered _ ?_).1⟩
  intro q listed
  rw [List.mem_append, List.mem_reverse, or_self] at listed
  exact node_mem_of_questions listed

end Program

end ScriptTypes
