import ScriptTypes.Proofs.Answers
import ScriptTypes.Proofs.Descriptor.Chains
import ScriptTypes.Proofs.Tree.Places

/-! Declarations, assignments and functions constrain the tables: what is stored under a name is to
be known of the name, unless it is not worth recording. The tables of a program at rest satisfy all
of these constraints. An offer that is refused says so of its name, and no function can overturn
what is recorded of its own. -/

namespace ScriptTypes

namespace Node

variable {n f : Node}

theorem Linked.identifier {c : Node} {slot : Slot} (linked : n.Linked)
    (held : n.content slot = .one c) (kind : c.kind = .identifier) :
    ∃ field, c.form = .identifier field (n.kind.role n.head.isComputed slot) := by
  obtain ⟨field, role, form⟩ := identifier_of_kind kind
  rw [← (linked.fits held).role field role form]
  exact ⟨field, form⟩

theorem ofContent_of_identifier {field : Option Json} {role : Role} {name : Name}
    (form : n.form = .identifier field role) (named : Name.ofField field = .ok name) :
    Binding.ofContent (.one n) = .ok (some ⟨name, n.head.scope⟩) := by
  unfold Binding.ofContent
  simp only [form, named]
  rfl

theorem freshType_function {env : Environment} {tables : Array TypeTable} {d : Descriptor}
    (kind : f.kind.isFunction = true) (derived : f.freshType env tables = .ok d) :
    ∃ result, d = .function result := by
  obtain ⟨expression, own, declarator, form⟩ := function_of_kind kind
  have derives : rule env f (f.parts env) = (f.parts env).functionType f.head.inner := by
    change f.head.form = _ at form
    simp only [rule, form]
  unfold freshType at derived
  rw [typeOf_other (by rw [form]; intro _ _ other; cases other), outcome_remembering,
    State.typeAt_bare, derives] at derived
  dsimp only at derived
  rcases ran : ((f.parts env).functionType f.head.inner).outcome (.bare tables) with
    ⟨failure | e, after⟩
  · rw [ran] at derived
    cases derived
  · rw [ran] at derived
    cases derived
    obtain ⟨returned, _, _, last⟩ := InferM.outcome_bind_eq_ok ran
    cases last
    exact ⟨_, rfl⟩

end Node

namespace Environment

variable {env : Environment} {n target value f : Node} {b : Binding}

theorem settle_declarator (form : n.form = .statement .variableDeclarator)
    (id : n.content .id = .one target) (identifier : target.kind = .identifier)
    (init : n.content .init = .one value) (plain : value.kind.isFunction = false) :
    env.settle n = (do
      let d ← value.typeOf env
      env.hint target d) := by
  rw [settle, form]
  dsimp only
  rw [settleDeclarator, init]
  dsimp only
  split
  · next expression _ _ function =>
    change value.form.kind.isFunction = false at plain
    rw [function] at plain
    cases expression <;> cases plain
  · simp [id, identifier, typeIn, InferM.sole, Kind.isExpression]

/-- An assignment compares its sides, and offers the type that tells more to the other side. -/
theorem settle_store (form : n.form = .assignment (.text "="))
    (left : n.content .left = .one target) (right : n.content .right = .one value) :
    env.settle n = (do
      let old ← target.typeOf env
      let new ← value.typeOf env
      match old.compare new with
      | .equal => return false
      | .greater => env.hint value old
      | _ => env.hint target new) := by
  have stores : env.settle n = env.teachStore (n.content .left) (n.content .right) := by
    rw [settle, form]
    dsimp only
    rw [teach, form]
    rfl
  rw [stores, left, right]
  rfl

theorem recorded_of_name {scopes : Nat} (placed : n.Placed scopes) (linked : n.Linked)
    (kind : f.kind.isFunction = true)
    (holds : n = f ∨ n.form = .statement .variableDeclarator ∧ n.content .init = .one f)
    (named : Binding.ofContent (n.content .id) = .ok (some b)) : recorded? n = some (f, b) := by
  obtain ⟨expression, own, declarator, form⟩ := Node.function_of_kind kind
  rcases holds with rfl | ⟨declares, init⟩
  · have bound := placed.own _ _ _ form
    rw [named] at bound
    cases bound
    simp only [recorded?, form]
    rfl
  · have bound := (linked.fits init).declarator _ _ _ form
    rw [declaratorFor, if_pos ⟨congrArg Form.kind declares, rfl⟩, named] at bound
    cases bound
    simp only [recorded?, declares, init, form]
    rfl

end Environment

namespace Program

variable {p : Program} {st after : State} {n target value f : Node} {b : Binding} {d : Descriptor}

/-- What is recorded of the name makes recording this type superfluous. -/
def Absorbs (p : Program) (st : State) (b : Binding) (d : Descriptor) : Prop :=
  (st.table (p.homeOf b)).Absorbs p.settings.maxDepth b.name d

/-- The tables satisfy the constraints of the program. -/
structure Solved (p : Program) (st : State) : Prop where
  declarators : ∀ n ∈ p.root.preorder, n.form = .statement .variableDeclarator →
    ∀ target value, n.content .id = .one target → target.kind = .identifier →
      n.content .init = .one value → value.kind.isFunction = false →
      ∃ b d, Binding.ofContent (n.content .id) = .ok (some b) ∧ p.typeOf st value = .ok d ∧
        p.Absorbs st b d
  assignments : ∀ n ∈ p.root.preorder, n.form = .assignment (.text "=") →
    ∀ target value, n.content .left = .one target → target.kind = .identifier →
      n.content .right = .one value →
      ∃ b old new, Binding.ofContent (n.content .left) = .ok (some b) ∧
        p.typeOf st target = .ok old ∧ p.typeOf st value = .ok new ∧
        (new = old ∨ new.compare old = .less ∨ p.Absorbs st b new)
  /-- A function counts for its own name and for that of the declarator it initialises, if it is the
  last one bound to the name. -/
  functions : ∀ n ∈ p.root.preorder, ∀ f, f.kind.isFunction = true →
    n = f ∨ n.form = .statement .variableDeclarator ∧ n.content .init = .one f →
    ∀ b, Binding.ofContent (n.content .id) = .ok (some b) → p.lastBound b = some f.id →
      ∃ d, p.typeOf st f = .ok (.function d) ∧ p.Absorbs st b (.function d)

theorem absorbs_of_refused (formed : p.WellFormed) (place : p.Records (p.homeOf b) b.name)
    (ran : (liftM (p.scopes.offer (p.homeOf b) b.name d) : InferM Bool).outcome st =
      (.ok false, after)) : p.Absorbs st b d := by
  rcases outcome_offer p.scopes (p.homeOf b) b.name d st with ⟨refused, _⟩ | ⟨_, _, _, entered⟩
  · have absorbed := TypeTable.offer?_eq_none_iff.mp refused
    rwa [formed.closed.boundOf place.scope] at absorbed
  · rw [ran] at entered
    cases entered

section

variable {field : Option Json} {role : Role}

theorem named_of_typeOf (form : target.form = .identifier field role) (proper : role ≠ .label)
    (typed : p.typeOf st target = .ok d) :
    ∃ b, Binding.ofContent (.one target) = .ok (some b) := by
  unfold typeOf at typed
  rw [Node.typeOf_identifier form, Environment.outcome_nameType, if_neg proper] at typed
  cases named : Name.ofField field with
  | error fault =>
    rw [named] at typed
    cases typed
  | ok name => exact ⟨_, Node.ofContent_of_identifier form named⟩

theorem absorbs_of_hint (formed : p.WellFormed) (member : target ∈ p.root.preorder)
    (form : target.form = .identifier field role) (proper : role ≠ .label)
    (ran : (p.hint target d).outcome st = (.ok false, after)) :
    ∃ b, Binding.ofContent (.one target) = .ok (some b) ∧ p.Absorbs st b d := by
  simp only [Environment.hint, Environment.hintIdentifier, form] at ran
  rw [Environment.hintName, if_neg proper] at ran
  cases named : Name.ofField field with
  | error fault =>
    rw [named] at ran
    cases ran
  | ok name =>
    rw [named] at ran
    refine ⟨_, Node.ofContent_of_identifier form named, ?_⟩
    exact absorbs_of_refused formed
      (formed.records_of_site ⟨target, field, role, member, form, proper, named, rfl⟩) ran

end

namespace AtRest

theorem silent (formed : p.WellFormed) (rest : p.AtRest st) (member : n ∈ p.root.preorder) :
    (p.settle n).outcome (.bare st.tables) = (.ok false, .bare st.tables) := by
  rcases Node.mem_preorder.mp member with rfl | below
  · have form := formed.root_form
    rw [Environment.settle, form]
    dsimp only
    rw [Environment.teach, form]
    rfl
  · exact rest.quiet n below

/-- What settling a node derives first is the type that is found, and the rest of it follows. -/
theorem derives (formed : p.WellFormed) (rest : p.AtRest st) (member : value ∈ p.root.preorder)
    {α : Type} {next : Descriptor → InferM α} {a : α}
    (ran : (value.typeOf p.toEnvironment >>= next).outcome (.bare st.tables) = (.ok a, after)) :
    ∃ d, p.typeOf st value = .ok d ∧ (next d).outcome (.bare st.tables) = (.ok a, after) := by
  obtain ⟨d, middle, first, later⟩ := InferM.outcome_bind_eq_ok ran
  have bare := (typeOf_reads formed value member _ rest.lawful.bare).bare
  rw [first] at bare
  cases bare
  refine ⟨d, ?_, later⟩
  rw [typeOf_renewed formed rest.lawful rest.coherent member, Node.freshType, first]

theorem declarator_solved (formed : p.WellFormed) (rest : p.AtRest st)
    (member : n ∈ p.root.preorder) (linked : n.Linked)
    (form : n.form = .statement .variableDeclarator) (id : n.content .id = .one target)
    (identifier : target.kind = .identifier) (init : n.content .init = .one value)
    (plain : value.kind.isFunction = false) :
    ∃ b d, Binding.ofContent (n.content .id) = .ok (some b) ∧ p.typeOf st value = .ok d ∧
      p.Absorbs st b d := by
  have inside := Node.preorder_closed n member
  have ran := rest.silent formed member
  rw [Environment.settle_declarator form id identifier init plain] at ran
  obtain ⟨d, typed, ran⟩ := rest.derives formed (inside value (Node.child_of_one init).1) ran
  obtain ⟨field, shape⟩ := linked.identifier id identifier
  have proper : n.kind.role n.head.isComputed .id ≠ .label := by
    rw [show n.kind = _ from congrArg Form.kind form]
    change Role.definition ≠ .label
    decide
  obtain ⟨b, named, absorbs⟩ :=
    absorbs_of_hint formed (inside target (Node.child_of_one id).1) shape proper ran
  exact ⟨b, d, id ▸ named, typed, absorbs⟩

theorem assignment_solved (formed : p.WellFormed) (rest : p.AtRest st)
    (member : n ∈ p.root.preorder) (linked : n.Linked) (form : n.form = .assignment (.text "="))
    (left : n.content .left = .one target) (identifier : target.kind = .identifier)
    (right : n.content .right = .one value) :
    ∃ b old new, Binding.ofContent (n.content .left) = .ok (some b) ∧
      p.typeOf st target = .ok old ∧ p.typeOf st value = .ok new ∧
      (new = old ∨ new.compare old = .less ∨ p.Absorbs st b new) := by
  have inside := Node.preorder_closed n member
  have known := inside target (Node.child_of_one left).1
  have ran := rest.silent formed member
  rw [Environment.settle_store form left right] at ran
  obtain ⟨old, found, ran⟩ := rest.derives formed known ran
  obtain ⟨new, given, ran⟩ := rest.derives formed (inside value (Node.child_of_one right).1) ran
  obtain ⟨field, shape⟩ := linked.identifier left identifier
  have proper : n.kind.role n.head.isComputed .left ≠ .label := by
    rw [show n.kind = _ from congrArg Form.kind form]
    change Role.reference ≠ .label
    decide
  rw [left]
  obtain ⟨b, named⟩ := named_of_typeOf shape proper found
  cases order : old.compare new with
  | equal =>
    have same : new = old := (Descriptor.eq_of_compare_equal order).symm
    exact ⟨b, old, new, named, found, given, .inl same⟩
  | greater =>
    have less : new.compare old = .less := Descriptor.compare_less_iff.mpr order
    exact ⟨b, old, new, named, found, given, .inr (.inl less)⟩
  | less | incomparable =>
    rw [order] at ran
    obtain ⟨b, named, absorbs⟩ := absorbs_of_hint formed known shape proper ran
    exact ⟨b, old, new, named, found, given, .inr (.inr absorbs)⟩

theorem function_solved (formed : p.WellFormed) (rest : p.AtRest st)
    (member : n ∈ p.root.preorder) (linked : n.Linked) (kind : f.kind.isFunction = true)
    (holds : n = f ∨ n.form = .statement .variableDeclarator ∧ n.content .init = .one f)
    (named : Binding.ofContent (n.content .id) = .ok (some b)) (last : p.lastBound b = some f.id) :
    ∃ d, p.typeOf st f = .ok (.function d) ∧ p.Absorbs st b (.function d) := by
  have records := Environment.recorded_of_name (formed.placed n member) linked kind holds named
  obtain ⟨inside, _⟩ := Environment.mem_of_recorded records member
  have silent := rest.silent formed member
  have ran := silent
  rw [Environment.settle_of_recorded records, Environment.recordFunction_eq, if_pos last] at ran
  obtain ⟨d, typed, ran⟩ := rest.derives formed inside ran
  have fresh : f.freshType p.toEnvironment st.tables = .ok d := by
    rw [← typeOf_renewed formed rest.lawful rest.coherent inside, typed]
  have agrees : Candidates.contradicts d ((st.table (p.homeOf b)).candidates b.name) = false := by
    by_contra contradicted
    have overturns : p.Overturns (.bare st.tables) n f b d :=
      ⟨records, last, fresh, Bool.eq_true_of_not_eq_false contradicted⟩
    have changed := tables_ne_of_overturns formed member rest.lawful.bare overturns
    rw [silent] at changed
    exact changed rfl
  rw [outcome_revise_agreeing p.toEnvironment b d (.bare st.tables) agrees] at ran
  have absorbs := absorbs_of_refused formed (formed.records_of_recorded records member) ran
  obtain ⟨result, rfl⟩ := Node.freshType_function kind fresh
  exact ⟨result, typed, absorbs⟩

end AtRest

/-- Once the last pass has left the tables alone, they satisfy the constraints of the program. -/
theorem solved_of_steady {settings : Settings} {tree : Json}
    (accepted : ofJson settings tree = .ok p) (reached : p.Reached st) {k : Nat} {final : State}
    (ran : p.infer.outcome st = (.ok (k + 1), final)) (steady : final.tables = p.tablesAt st k) :
    p.Solved final := by
  have formed := wellFormed_of_ofJson accepted
  have rest := atRest_of_steady formed (reached.lawful formed) ran steady
  have linked : ∀ n ∈ p.root.preorder, n.Linked := by
    obtain ⟨root, read, rfl⟩ := ofJson_eq_ok accepted
    exact Node.linked_of_ofJson read
  constructor
  · intro n member form target value id identifier init plain
    exact rest.declarator_solved formed member (linked n member) form id identifier init plain
  · intro n member form target value left identifier right
    exact rest.assignment_solved formed member (linked n member) form left identifier right
  · intro n member f kind holds b named last
    exact rest.function_solved formed member (linked n member) kind holds named last

open Raw in
/-- In `b = f(); function f() { return g(); } var g = function () { return a; }; var a = [1]; a = c;
d = [[[[[1]]]]];` the type of `b` is known last, and that of `d` is too deep to be recorded. -/
def storing : Json :=
  program [
    assignment "b" (call (identifier "f")),
    function "f" [call (identifier "g")],
    declaration "g" (closure [identifier "a"]),
    declaration "a" (array [literal (.int 1)]),
    assignment "a" (identifier "c"),
    assignment "d" (array [array [array [array [array [literal (.int 1)]]]]])]

def StoresAll (p : Program) : Prop :=
  (∃ n ∈ p.root.preorder, n.kind = .statement .variableDeclarator ∧
    ∃ target, n.content .id = .one target ∧ target.kind = .identifier ∧
      ∃ value, n.content .init = .one value ∧ value.kind.isFunction = false) ∧
  (∃ n ∈ p.root.preorder, n.kind = .assignmentExpression ∧
    ∃ target, n.content .left = .one target ∧ target.kind = .identifier) ∧
  ∃ n ∈ p.root.preorder, n.kind = .statement .variableDeclarator ∧
    ∃ f, n.content .init = .one f ∧ f.kind.isFunction = true ∧
      ∃ own, Binding.ofContent (n.content .id) = .ok own ∧ own.bind p.lastBound = some f.id

instance (p : Program) : Decidable p.StoresAll := inferInstanceAs (Decidable (_ ∧ _ ∧ _))

theorem storing_solved : ∃ p, ofJson .standard storing = .ok p ∧ p.Reached p.start ∧ p.StoresAll ∧
    ∃ final, p.infer.outcome p.start = (.ok 4, final) ∧ final.tables = p.tablesAt p.start 3 ∧
      final.table 0 = [(.text "f", [.function (.arrayOf .int)]),
        (.text "g", [.function (.arrayOf .int)]), (.text "a", [.arrayOf .int]),
        (.text "c", [.arrayOf .int]), (.text "b", [.arrayOf .int])] ∧ p.Solved final := by
  have run : ∃ p, ofJson .standard storing = .ok p ∧ p.StoresAll ∧
      ∃ n, (p.infer.outcome p.start).1 = .ok n ∧ n = 4 ∧
        (p.infer.outcome p.start).2.tables = p.tablesAt p.start 3 ∧
        (p.infer.outcome p.start).2.table 0 = [(.text "f", [.function (.arrayOf .int)]),
          (.text "g", [.function (.arrayOf .int)]), (.text "a", [.arrayOf .int]),
          (.text "c", [.arrayOf .int]), (.text "b", [.arrayOf .int])] := by
    decide +kernel
  obtain ⟨p, accepted, stores, _, returned, rfl, steady, table⟩ := run
  have ran : p.infer.outcome p.start = (.ok 4, (p.infer.outcome p.start).2) := Prod.ext returned rfl
  exact ⟨p, accepted, .start, stores, _, ran, steady, table,
    solved_of_steady accepted .start ran steady⟩

end Program

end ScriptTypes
