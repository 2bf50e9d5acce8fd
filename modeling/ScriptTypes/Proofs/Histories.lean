import ScriptTypes.Proofs.Answers

/-! Between its construction and an answer a program may be inferred, its nodes settled or forgotten
one by one, and questions asked, in any order and whether or not they fail. Every state that this
leads to is lawful, so that only canonical descriptors are ever recorded, remembered or answered. -/

namespace ScriptTypes

open Descriptor (Canonical)

/-- One thing that is done to a program. -/
inductive Action where
  | infer
  | settle (node : Node)
  | forget (node : Node)
  | ask (q : Query)

namespace Action

def Inside (p : Program) : Action → Prop
  | infer => True
  | settle node => node ∈ p.root.preorder
  | forget node => node ∈ p.root.preorder
  | ask q => q.node ∈ p.root.preorder

def run (p : Program) : Action → InferM Unit
  | infer => discard p.infer
  | settle node => discard (p.settle node)
  | forget node => modify (State.forget node.id)
  | ask q => q.ask p.toEnvironment

end Action

theorem InferM.outcome_discard {α : Type} (m : InferM α) (st : State) :
    ((discard m : InferM Unit).outcome st).2 = (m.outcome st).2 := by
  change ((m >>= fun _ => pure () : InferM Unit).outcome st).2 = _
  rw [outcome_bind]
  rcases m.outcome st with ⟨_ | _, _⟩ <;> rfl

namespace Program

variable {p : Program} {st : State}

/-- The state that an action leaves behind, also when it fails. -/
def perform (p : Program) (st : State) (a : Action) : State := ((a.run p).outcome st).2

theorem perform_lawful (formed : p.WellFormed) {a : Action} (inside : a.Inside p)
    (lawful : st.Lawful p) : (p.perform st a).Lawful p := by
  cases a with
  | infer =>
    unfold perform Action.run
    rw [InferM.outcome_discard]
    exact infer_lawful formed lawful
  | settle node =>
    unfold perform Action.run
    rw [InferM.outcome_discard]
    exact (settle_keeps formed inside lawful).lawful
  | forget node => exact forgetAll_lawful [node] lawful
  | ask q => exact ((q.ask_consults inside).reads formed st lawful).lawful

theorem performed_lawful (formed : p.WellFormed) {actions : List Action}
    (inside : ∀ a ∈ actions, a.Inside p) (lawful : st.Lawful p) :
    (actions.foldl p.perform st).Lawful p := by
  induction actions generalizing st with
  | nil => exact lawful
  | cons a actions ih =>
    have next := perform_lawful formed (inside a List.mem_cons_self) lawful
    exact ih (fun b listed => inside b (List.mem_cons_of_mem _ listed)) next

/-- Whatever was done to a program, and whether or not it failed, every candidate of every scope is
canonical, and so is every type that a node is found to have or is remembered to have. -/
theorem canonical_after_actions {settings : Settings} {tree : Json}
    (accepted : ofJson settings tree = .ok p) (actions : List Action)
    (inside : ∀ a ∈ actions, a.Inside p) :
    (∀ t ∈ (actions.foldl p.perform p.start).tables, ∀ entry ∈ t, ∀ c ∈ entry.2, Canonical c) ∧
      ∀ n ∈ p.root.preorder, ∀ d,
        p.typeOf (actions.foldl p.perform p.start) n = .ok d ∨
          (actions.foldl p.perform p.start).typeAt n.id = some d → Canonical d := by
  have formed := wellFormed_of_ofJson accepted
  have lawful := performed_lawful formed inside p.start_lawful
  refine ⟨?_, ?_⟩
  · intro t member entry listed c candidate
    exact ((lawful.tables t member).canonical entry listed c candidate)
  · rintro n member d (answered | remembered)
    · exact ((typeOf_reads formed n member _ lawful).answer d answered).1
    · exact (lawful.types n member d remembered).1

open Raw in
/-- In `v = 1; function f() { return [v]; } v = "s"; ?z;` the last operator is not a known one. -/
def mixing : Json :=
  program [
    assignment "v" (literal (.int 1)),
    function "f" [array [identifier "v"]],
    assignment "v" (literal (.text "s")),
    expression (node "UnaryExpression" [("operator", .text "?"), ("argument", identifier "z")])]

def upheaval (p : Program) : List Action :=
  p.root.preorder.map (fun n => .ask (.type n)) ++ .infer :: .ask (.listing true p.root) ::
    p.root.preorder.reverse.flatMap fun n => [.forget n, .settle n]

theorem inside_of_upheaval {a : Action} (listed : a ∈ p.upheaval) : a.Inside p := by
  rcases List.mem_append.mp listed with asked | later
  · obtain ⟨n, member, rfl⟩ := List.mem_map.mp asked
    exact member
  · rcases List.mem_cons.mp later with rfl | later
    · trivial
    · rcases List.mem_cons.mp later with rfl | later
      · exact p.root.mem_preorder_self
      · obtain ⟨n, member, settled⟩ := List.mem_flatMap.mp later
        rcases List.mem_pair.mp settled with rfl | rfl
        · exact List.mem_reverse.mp member
        · exact List.mem_reverse.mp member

theorem mixing_canonical : ∃ p, ofJson .standard mixing = .ok p ∧
    (∃ a ∈ p.upheaval, ((a.run p).outcome p.start).1.isOk = false) ∧
    (∃ t ∈ (p.upheaval.foldl p.perform p.start).tables, ∃ entry ∈ t,
      .function (.arrayOf .intOrString) ∈ entry.2) ∧
    (∃ n ∈ p.root.preorder,
      (p.typeOf (p.upheaval.foldl p.perform p.start) n).toOption = some .intOrString) ∧
    Canonical (.function (.arrayOf .intOrString)) ∧ Canonical .intOrString := by
  have run : ∃ p, ofJson .standard mixing = .ok p ∧
      (∃ a ∈ p.upheaval, ((a.run p).outcome p.start).1.isOk = false) ∧
      (∃ t ∈ (p.upheaval.foldl p.perform p.start).tables, ∃ entry ∈ t,
        .function (.arrayOf .intOrString) ∈ entry.2) ∧
      ∃ n ∈ p.root.preorder,
        (p.typeOf (p.upheaval.foldl p.perform p.start) n).toOption = some .intOrString := by
    decide +kernel
  obtain ⟨p, accepted, fails, recorded, answered⟩ := run
  obtain ⟨tables, types⟩ := canonical_after_actions accepted p.upheaval
    fun a listed => inside_of_upheaval listed
  obtain ⟨t, member, entry, listed, candidate⟩ := recorded
  obtain ⟨n, inside, found⟩ := answered
  have answer : p.typeOf (p.upheaval.foldl p.perform p.start) n = .ok .intOrString := by
    cases answer : p.typeOf (p.upheaval.foldl p.perform p.start) n with
    | error failure => rw [answer] at found; cases found
    | ok d => rw [answer] at found; cases found; rfl
  exact ⟨p, accepted, fails, ⟨t, member, entry, listed, candidate⟩, ⟨n, inside, found⟩,
    tables t member entry listed _ candidate, types n inside _ (.inl answer)⟩

end Program

end ScriptTypes
