import ScriptTypes.Proofs.Answers

/-! What is remembered may be out of date, and then a node need not have the type that the tables
give it. Still no question changes the answer to another: all that a question adds to the memory is
what any later question would have found. -/

namespace ScriptTypes

open Descriptor (Canonical)

/-- The state has the tables of the other and remembers what that remembers. All else that it
remembers are the types that nodes have in the other. -/
structure State.Extends (p : Program) (st base : State) : Prop where
  lawful : st.Lawful p
  tables : st.tables = base.tables
  kept : ∀ n ∈ p.root.preorder, ∀ d, base.typeAt n.id = some d → st.typeAt n.id = some d
  known : ∀ n ∈ p.root.preorder, (∀ field role, n.form ≠ .identifier field role) →
    ∀ d, st.typeAt n.id = some d → p.typeOf base n = .ok d

/-- Wherever the memory of this state was added to, the computation answers as it does here, and adds
no more than that. -/
def Stable (p : Program) (base : State) {α : Type} (m : InferM α) : Prop :=
  ∀ st, st.Extends p base → (m.outcome st).1 = (m.outcome base).1 ∧
    (m.outcome st).2.Extends p base

section

variable {p : Program} {base st : State} {α β : Type}

theorem Program.typeOf_eq_of_remembered {n : Node}
    (other : ∀ field role, n.form ≠ .identifier field role) {d : Descriptor}
    (remembered : st.typeAt n.id = some d) : p.typeOf st n = .ok d := by
  unfold Program.typeOf
  rw [Node.typeOf_other other, outcome_remembering, remembered]

theorem State.Extends.refl (lawful : base.Lawful p) : base.Extends p base where
  lawful := lawful
  tables := rfl
  kept _ _ _ remembered := remembered
  known _ _ other _ remembered := Program.typeOf_eq_of_remembered other remembered

theorem State.Extends.remember (formed : p.WellFormed) (extended : st.Extends p base) {n : Node}
    (member : n ∈ p.root.preorder) {d : Descriptor} (suits : State.Suits n d)
    (blank : base.typeAt n.id = none) (derived : p.typeOf base n = .ok d) :
    (st.remember n.id d).Extends p base where
  lawful := extended.lawful.remember formed member suits
  tables := extended.tables
  kept m inside e remembered := by
    rw [State.typeAt_remember]
    split
    · next same =>
      rw [same.1, blank] at remembered
      cases remembered
    · exact extended.kept m inside e remembered
  known m inside other e remembered := by
    rw [State.typeAt_remember] at remembered
    split at remembered
    · next same =>
      cases remembered
      rw [formed.eq_of_id inside member same.1]
      exact derived
    · exact extended.known m inside other e remembered

theorem Stable.bind {m : InferM α} {f : α → InferM β} (lawful : base.Lawful p)
    (first : Stable p base m) (next : ∀ a, (m.outcome base).1 = .ok a → Stable p base (f a)) :
    Stable p base (m >>= f) := by
  have here := (first base (.refl lawful)).2
  intro st extended
  obtain ⟨same, kept⟩ := first st extended
  rcases ran : m.outcome st with ⟨failure | a, middle⟩
  · rcases again : m.outcome base with ⟨answer, last⟩
    rw [ran, again] at same
    cases same
    rw [InferM.outcome_bind_error ran, InferM.outcome_bind_error again]
    rw [ran] at kept
    exact ⟨rfl, kept⟩
  · rcases again : m.outcome base with ⟨answer, last⟩
    rw [ran, again] at same
    cases same
    rw [InferM.outcome_bind_ok ran, InferM.outcome_bind_ok again]
    rw [ran] at kept
    rw [again] at here
    have later := next a (by rw [again])
    exact ⟨(later middle kept).1.trans (later last here).1.symm, (later middle kept).2⟩

theorem Stable.name (env : Environment) (scope : ScopeId) (field : Option Json) (role : Role) :
    Stable p base (env.nameType scope field role) := by
  intro st extended
  rw [Environment.outcome_nameType, Environment.outcome_nameType]
  refine ⟨?_, extended⟩
  simp only [State.table_congr extended.tables]

theorem Consults.stable_of_asked {asked : Node → Prop} (formed : p.WellFormed)
    (lawful : base.Lawful p) (inside : ∀ n, asked n → n ∈ p.root.preorder)
    (each : ∀ n, asked n → Stable p base (n.typeOf p.toEnvironment)) {Q : α → Prop} {m : InferM α}
    (consults : Consults Canonical p.toEnvironment asked Q m) : Stable p base m := by
  induction consults with
  | pure => exact fun st extended => ⟨rfl, extended⟩
  | throw => exact fun st extended => ⟨rfl, extended⟩
  | name scope field role => exact .name _ scope field role
  | type member => exact each _ member
  | bind consults _ first next =>
    refine Stable.bind lawful first ?_
    intro a answered
    have reads := (consults.mono inside).reads formed base lawful
    exact next a (reads.answer a answered)

/-- Asking for the type of a node does not change what types nodes have. -/
theorem typeOf_stable (formed : p.WellFormed) (lawful : base.Lawful p) (n : Node)
    (member : n ∈ p.root.preorder) : Stable p base (n.typeOf p.toEnvironment) := by
  induction n using Node.descendants_induction with
  | step n below =>
    rcases n.identifier_or_other with ⟨field, role, form⟩ | other
    · rw [Node.typeOf_identifier form]
      exact .name _ _ field role
    · have deep : ∀ m ∈ n.descendants, m ∈ p.root.preorder := fun m inside =>
        Node.preorder_trans (Node.mem_preorder.mpr (.inr inside)) member
      have consults : Consults Canonical p.toEnvironment (· ∈ n.descendants) Canonical
          (rule p.toEnvironment n (n.parts p.toEnvironment)) :=
        rule_consults Canonical.ample n n.parts_consult
      have stable := consults.stable_of_asked formed lawful deep
        fun m inside => below m inside (deep m inside)
      have derived := @Node.typeOf_other p.toEnvironment n other
      intro st extended
      rw [derived, outcome_remembering]
      cases remembered : st.typeAt n.id with
      | some d =>
        refine ⟨?_, extended⟩
        rw [← derived]
        exact (extended.known n member other d remembered).symm
      | none =>
        have blank : base.typeAt n.id = none := by
          by_contra known
          obtain ⟨d, known⟩ := Option.ne_none_iff_exists'.mp known
          rw [extended.kept n member d known] at remembered
          cases remembered
        obtain ⟨same, kept⟩ := stable st extended
        have reads := rule_reads member (fun m _ => typeOf_reads formed m) st extended.lawful
        have here : ((InferM.remembering n.id (rule p.toEnvironment n (n.parts p.toEnvironment))).outcome
            base).1 = ((rule p.toEnvironment n (n.parts p.toEnvironment)).outcome st).1 := by
          rw [outcome_remembering, blank, same]
          rcases (rule p.toEnvironment n (n.parts p.toEnvironment)).outcome base with ⟨_ | _, _⟩ <;> rfl
        rw [here]
        rcases ran : (rule p.toEnvironment n (n.parts p.toEnvironment)).outcome st with
          ⟨failure | d, after⟩
        · rw [ran] at kept
          exact ⟨rfl, kept⟩
        · rw [ran] at kept here
          refine ⟨rfl, kept.remember formed member (reads.answer d (by rw [ran])) blank ?_⟩
          unfold Program.typeOf
          rw [derived, here]

theorem Consults.stable (formed : p.WellFormed) (lawful : base.Lawful p) {Q : α → Prop}
    {m : InferM α} (consults : Consults Canonical p.toEnvironment (· ∈ p.root.preorder) Q m) :
    Stable p base m :=
  consults.stable_of_asked formed lawful (fun _ member => member) (typeOf_stable formed lawful)

end

end ScriptTypes
