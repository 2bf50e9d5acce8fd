import ScriptTypes.Listing
import ScriptTypes.Proofs.Descriptor.Canonical
import ScriptTypes.Proofs.Tree.Traversal

/-! A typing rule asks for the types of nodes below its own and for the types of names, and computes
with the answers. `Consults` says just that of a computation, together with what holds of its result
if all answers are of one sort; every property of the typing rules is derived from it. -/

namespace ScriptTypes

namespace Failure

def isStall : Failure → Bool
  | .report ⟨.notConverged _ _, _, _⟩ => true
  | _ => false

theorem isStall_about {problem : Problem} {raw : Json}
    (other : ∀ passes limit, problem ≠ .notConverged passes limit) :
    (about problem raw).isStall = false := by
  unfold about Report.about
  cases Location.ofJson raw with
  | error fault => rfl
  | ok location =>
    cases problem with
    | notConverged passes limit => exact absurd rfl (other passes limit)
    | _ => rfl

end Failure

namespace InferM

variable {α β : Type}

/-- What a computation answers and leaves behind when it starts in a state. -/
def outcome (m : InferM α) (st : State) : Except Failure α × State := m.run.run st

theorem outcome_bind (m : InferM α) (f : α → InferM β) (st : State) :
    (m >>= f).outcome st =
      match m.outcome st with
      | (.ok a, st) => (f a).outcome st
      | (.error failure, st) => (.error failure, st) := by
  unfold outcome
  rw [ExceptT.run_bind, StateT.run_bind]
  rcases m.run.run st with ⟨failure | a, after⟩ <;> rfl

theorem outcome_bind_ok {m : InferM α} {f : α → InferM β} {st after : State} {a : α}
    (ran : m.outcome st = (.ok a, after)) : (m >>= f).outcome st = (f a).outcome after := by
  rw [outcome_bind, ran]

theorem outcome_bind_error {m : InferM α} {f : α → InferM β} {st after : State} {failure : Failure}
    (ran : m.outcome st = (.error failure, after)) :
    (m >>= f).outcome st = (.error failure, after) := by
  rw [outcome_bind, ran]

theorem outcome_bind_eq_ok {m : InferM α} {f : α → InferM β} {st after : State} {b : β}
    (ran : (m >>= f).outcome st = (.ok b, after)) :
    ∃ a middle, m.outcome st = (.ok a, middle) ∧ (f a).outcome middle = (.ok b, after) := by
  rw [outcome_bind] at ran
  rcases first : m.outcome st with ⟨failure | a, middle⟩
  · rw [first] at ran
    cases ran
  · rw [first] at ran
    exact ⟨a, middle, rfl, ran⟩

@[simp] theorem outcome_get (st : State) : (get : InferM State).outcome st = (.ok st, st) := rfl

@[simp] theorem outcome_modify (f : State → State) (st : State) :
    (modify f : InferM PUnit).outcome st = (.ok ⟨⟩, f st) := rfl

@[simp] theorem outcome_lift (m : StateM State α) (st : State) :
    (liftM m : InferM α).outcome st = (.ok (m.run st).1, (m.run st).2) := rfl

end InferM

open Descriptor (Ample)

theorem Descriptor.Ample.methodResult {sort : Descriptor → Prop} (ample : Ample sort)
    {receiver d : Descriptor} {method : Json} (holds : sort receiver)
    (ran : ScriptTypes.methodResult receiver method = .ok (some d)) : sort d := by
  unfold ScriptTypes.methodResult at ran
  dsimp only at ran
  split at ran
  · next text =>
    subst text
    cases found : textMethod? method with
    | error f => rw [found] at ran; cases ran
    | ok known =>
      rw [found] at ran
      cases known with
      | none => cases ran
      | some result =>
        cases ran
        unfold textMethod? at found
        split at found
        · exact ample.canonical (.stringMethod (Except.ok.inj found))
        · cases found
        · cases found
        · cases found
  · split at ran
    · split at ran
      · exact ample.collectionMethod holds (Except.ok.inj ran)
      · cases ran
    · cases ran

/-- The computation asks for types of nodes and names and computes with them; if they are of this
sort, what it answers satisfies the postcondition. -/
inductive Consults (sort : Descriptor → Prop) (env : Environment) (asked : Node → Prop) :
    {α : Type} → (α → Prop) → InferM α → Prop where
  | pure {α : Type} {Q : α → Prop} {a : α} : Q a → Consults sort env asked Q (pure a)
  | throw {α : Type} {Q : α → Prop} {failure : Failure} :
      failure.isStall = false → Consults sort env asked Q (throw failure)
  | name {Q : Descriptor → Prop} (scope : ScopeId) (name : Option Json) (role : Role) :
      (∀ d, sort d → Q d) → Consults sort env asked Q (env.nameType scope name role)
  | type {Q : Descriptor → Prop} {node : Node} :
      asked node → (∀ d, sort d → Q d) → Consults sort env asked Q (node.typeOf env)
  | bind {α β : Type} {P : α → Prop} {Q : β → Prop} {m : InferM α} {f : α → InferM β} :
      Consults sort env asked P m → (∀ a, P a → Consults sort env asked Q (f a)) →
      Consults sort env asked Q (m >>= f)

namespace Consults

variable {sort : Descriptor → Prop} {env : Environment} {asked : Node → Prop} {α : Type}
  {Q : α → Prop}

theorem mono {more : Node → Prop} {m : InferM α} (consults : Consults sort env asked Q m)
    (wider : ∀ n, asked n → more n) : Consults sort env more Q m := by
  induction consults with
  | pure holds => exact pure holds
  | throw other => exact throw other
  | name scope field role weaker => exact name scope field role weaker
  | type member weaker => exact type (wider _ member) weaker
  | bind _ _ first next => exact bind first next

theorem fault (f : Fault) : Consults sort env asked Q (InferM.fault f) := throw rfl

theorem ofFault {e : Except Fault α} (holds : ∀ a, e = .ok a → Q a) :
    Consults sort env asked Q (InferM.ofFault e) := by
  cases e with
  | ok a => exact pure (holds a rfl)
  | error f => exact fault f

theorem sole {content : Content α} (holds : ∀ a ∈ content.toList, Q a) :
    Consults sort env asked Q (InferM.sole content) := by
  cases content with
  | one a => exact pure (holds a (List.mem_singleton.mpr rfl))
  | empty => exact fault .notOneNode
  | many as => exact fault .notOneNode

theorem run_sole {content : Content (InferM α)}
    (each : ∀ m ∈ content.toList, Consults sort env asked Q m) :
    Consults sort env asked Q (do let m ← InferM.sole content; m) :=
  bind (sole each) fun _ consults => consults

theorem inTurn {ms : List (InferM α)} (each : ∀ m ∈ ms, Consults sort env asked Q m) :
    Consults sort env asked (fun as => ∀ a ∈ as, Q a) (InferM.inTurn ms) := by
  induction ms with
  | nil => exact pure (fun a member => absurd member List.not_mem_nil)
  | cons m ms ih =>
    refine bind (each m List.mem_cons_self) ?_
    intro a holds
    refine bind (ih fun m member => each m (List.mem_cons_of_mem _ member)) ?_
    intro as all
    refine pure ?_
    intro x member
    rcases List.mem_cons.mp member with rfl | member
    · exact holds
    · exact all x member

theorem operation (head : Head) (operator : Json) (symbol? : String → Option α) :
    Consults sort env asked (fun _ => True) (head.operation operator symbol?) := by
  have unknown : Consults sort env asked (fun _ : α => True)
      (throwThe Failure (.about (.unknownOperator head.kind.text operator) head.raw)) :=
    throw (Failure.isStall_about (by simp))
  cases operator with
  | list items => exact fault .compositeKey
  | object fields => exact fault .compositeKey
  | text symbol =>
    simp only [Head.operation]
    split
    · exact pure trivial
    · exact unknown
  | _ => exact unknown

theorem requireOperator (head : Head) (operator : Json) (accepts : String → Bool) :
    Consults sort env asked (fun _ => True) (head.requireOperator operator accepts) :=
  operation head operator _

theorem literalType (ample : Ample sort) (head : Head) (regex : Bool) (value : LiteralValue) :
    Consults sort env asked sort (head.literalType regex value) := by
  unfold Head.literalType
  split
  · exact pure ample.known
  · cases value with
    | list => exact throw (Failure.isStall_about (by simp))
    | object => exact throw (Failure.isStall_about (by simp))
    | _ => exact pure ample.known

end Consults

structure Parts.Consult (sort : Descriptor → Prop) (env : Environment) (asked : Node → Prop)
    (parts : Parts) : Prop where
  types : ∀ slot, ∀ m ∈ (parts.types slot).toList, Consults sort env asked sort m
  receiver : Consults sort env asked sort parts.receiver
  returned : ∀ scope, ∀ content ∈ parts.returned scope, ∀ m ∈ content.toList,
    Consults sort env asked sort m

namespace Consults

variable {sort : Descriptor → Prop} {env : Environment} {asked : Node → Prop} {parts : Parts}

theorem partType (consult : parts.Consult sort env asked) (slot : Slot) :
    Consults sort env asked sort (parts.type slot) := run_sole (consult.types slot)

theorem lastType (consult : parts.Consult sort env asked) (slot : Slot) :
    Consults sort env asked sort (parts.lastType slot) := by
  have inner := consult.types slot
  unfold Parts.lastType
  split
  · next types held =>
    split
    · next type last => exact inner type (by rw [held]; exact List.mem_of_getLast? last)
    · exact fault .emptySequence
  · exact fault .notList

variable (ample : Ample sort)

include ample

theorem functionType (consult : parts.Consult sort env asked) (scope : ScopeId) :
    Consults sort env asked sort (parts.functionType scope) := by
  have each : ∀ m ∈ (parts.returned scope).map Parts.returnedType,
      Consults sort env asked sort m := by
    intro m member
    obtain ⟨content, returned, rfl⟩ := List.mem_map.mp member
    have inner := consult.returned scope content returned
    cases content with
    | empty => exact pure ample.known
    | one m => exact run_sole inner
    | many ms => exact run_sole inner
  refine bind (inTurn each) ?_
  intro types all
  refine pure (ample.function ?_)
  split
  · exact ample.known
  · exact ample.unify all

theorem elementsType (consult : parts.Consult sort env asked) (slot : Slot) :
    Consults sort env asked sort (parts.elementsType slot) := by
  have inner := consult.types slot
  unfold Parts.elementsType
  split
  · exact pure ample.known
  · exact fault .notList
  · next types held =>
    rw [held] at inner
    refine bind (inTurn inner) ?_
    intro elements all
    split
    · next element only =>
      have listed : element ∈ elements := List.mem_eraseDups.mp (by rw [only]; simp)
      exact pure (ample.array (all element listed))
    · exact pure ample.known

theorem sizeType (computed : Bool) (property : Content Node) :
    Consults sort env asked sort (env.sizeType computed property) := by
  refine bind (P := fun _ => True) (ofFault fun _ _ => trivial) fun name _ => ?_
  refine bind (P := fun _ => True) (ofFault fun _ _ => trivial) fun sized _ => ?_
  refine pure ?_
  split <;> exact ample.known

theorem memberType (computed : Bool) (property : Content Node)
    (consult : parts.Consult sort env asked) :
    Consults sort env asked sort (env.memberType computed property parts) := by
  unfold Environment.memberType
  split
  · refine bind (partType consult .object) fun object holds => ?_
    split
    · exact pure (ample.element holds)
    · exact pure (ample.element holds)
    · split
      · refine bind (partType consult .property) fun index _ => ?_
        split
        · exact pure ample.known
        · exact sizeType ample computed property
      · exact sizeType ample computed property
  · exact sizeType ample computed property

theorem knownOrResult (consult : parts.Consult sort env asked) (known : Option Descriptor) :
    (∀ d, known = some d → sort d) → Consults sort env asked sort (match known with
      | some result => Pure.pure result
      | none => do return (← parts.type .callee).result) := by
  intro holds
  cases known with
  | some result => exact pure (holds result rfl)
  | none => exact bind (partType consult .callee) fun type holds => pure (ample.result holds)

theorem callType (callee : Content Node) (consult : parts.Consult sort env asked) :
    Consults sort env asked sort (ScriptTypes.callType callee parts) := by
  refine bind (P := fun _ => True) (ofFault fun _ _ => trivial) fun call _ => ?_
  dsimp only
  split
  · exact bind (pure fun _ none => by cases none) (knownOrResult ample consult)
  · exact bind (pure fun _ none => by cases none) (knownOrResult ample consult)
  · refine bind consult.receiver fun receiver holds => ?_
    refine bind (ofFault ?_) (knownOrResult ample consult)
    intro known ran d same
    exact ample.methodResult holds (ran.trans (by rw [same]))

theorem newType (callee : Content Node) :
    Consults sort env asked sort (ScriptTypes.newType callee) := by
  unfold ScriptTypes.newType
  split
  · split
    · exact fault .nameMissing
    · exact pure ample.known
    · exact pure ample.known
  · exact pure ample.known

end Consults

/-- Every rule is a consultation if what it can ask of its parts is. -/
theorem rule_consults {sort : Descriptor → Prop} {env : Environment} {asked : Node → Prop}
    {parts : Parts} (ample : Ample sort) (node : Node) (consult : parts.Consult sort env asked) :
    Consults sort env asked sort (rule env node parts) := by
  cases form : node.head.form <;> simp only [rule, form]
  case statement => exact .pure ample.known
  case function => exact .functionType ample consult node.head.inner
  case identifier name role => exact .name node.head.scope name role fun _ holds => holds
  case literal regex value => exact .literalType ample node.head regex value
  case thisExpression => exact .pure ample.known
  case assignment operator =>
    refine .bind (.operation node.head operator _) fun assignment _ => ?_
    split
    · exact .partType consult .right
    · next operation _ =>
      refine .bind (.partType consult .left) fun left _ => ?_
      exact .bind (.partType consult .right) fun right _ =>
        .pure (ample.canonical (.operation operation left right))
  case unary operator =>
    refine .bind (.operation node.head operator _) fun operation _ => ?_
    cases operation with
    | sign =>
      exact .bind (.partType consult .argument) fun d _ => .pure (ample.canonical (.numericLike d))
    | _ => exact .pure ample.known
  case binary operator =>
    refine .bind (.operation node.head operator _) fun operation _ => ?_
    refine .bind (.partType consult .left) fun left _ => ?_
    exact .bind (.partType consult .right) fun right _ =>
      .pure (ample.canonical (.operation operation left right))
  case logical operator =>
    refine .bind (.requireOperator node.head operator _) fun _ _ => ?_
    refine .bind (.partType consult .left) fun left first => ?_
    refine .bind (.partType consult .right) fun right second => .pure (ample.unify ?_)
    intro d member
    rcases List.mem_pair.mp member with rfl | rfl
    · exact first
    · exact second
  case conditional =>
    refine .bind (.partType consult .consequent) fun left first => ?_
    refine .bind (.partType consult .alternate) fun right second => .pure (ample.unify ?_)
    intro d member
    rcases List.mem_pair.mp member with rfl | rfl
    · exact first
    · exact second
  case update operator =>
    refine .bind (.requireOperator node.head operator _) fun _ _ => ?_
    exact .bind (.partType consult .argument) fun d _ => .pure (ample.canonical (.numericLike d))
  case member computed => exact .memberType ample computed (node.content .property) consult
  case call => exact .callType ample (node.content .callee) consult
  case new => exact .newType ample (node.content .callee)
  case sequence => exact .lastType consult .expressions
  case array => exact .elementsType ample consult .elements
  case object => exact .pure ample.known

namespace Node

variable {sort : Descriptor → Prop} {env : Environment}

/-- What the rule of a node is given to ask about. -/
def parts (env : Environment) (n : Node) : Parts :=
  ⟨fun slot => Content.ofParts n.head.lists slot (typesOf env n.children),
    receiverType env n.children, fun scope => returnTypes env scope n.children⟩

theorem typeOf_identifier {n : Node} {name : Option Json} {role : Role}
    (form : n.form = .identifier name role) :
    n.typeOf env = env.nameType n.head.scope name role := by
  cases n with
  | mk head children =>
    change head.form = .identifier name role at form
    simp only [typeOf, rule, Node.head, form]

theorem typeOf_other {n : Node} (form : ∀ name role, n.form ≠ .identifier name role) :
    n.typeOf env = InferM.remembering n.id (rule env n (n.parts env)) := by
  cases n with
  | mk head children =>
    change ∀ name role, head.form ≠ .identifier name role at form
    simp only [typeOf, parts, Node.head, Node.children, Node.id]

theorem typesOf_eq_map (nodes : List Node) :
    typesOf env nodes = nodes.map fun n => (n.head.slot, n.typeOf env) := by
  induction nodes with
  | nil => rfl
  | cons n nodes ih =>
    cases n
    rw [typesOf, ih]
    rfl

theorem asks_child {lists : List Slot} {slot : Slot} {nodes : List Node} {m : InferM Descriptor}
    (member : m ∈ (Content.ofParts lists slot (typesOf env nodes)).toList) :
    ∃ c ∈ nodes, c.typeOf env = m := by
  rw [typesOf_eq_map] at member
  obtain ⟨c, child, _, same⟩ := Content.mem_ofParts member
  exact ⟨c, child, same⟩

theorem receiverType_consults {asked : Node → Prop} {nodes : List Node}
    (below : ∀ n ∈ nodes, ∀ c ∈ n.children, asked c) :
    Consults sort env asked sort (receiverType env nodes) := by
  induction nodes with
  | nil => exact .fault .notOneNode
  | cons n nodes ih =>
    cases n with
    | mk head children =>
      rw [receiverType]
      split
      · refine .run_sole ?_
        intro m member
        obtain ⟨c, child, rfl⟩ := asks_child member
        exact .type (below (mk head children) List.mem_cons_self c child) fun _ holds => holds
      · exact ih fun n member => below n (List.mem_cons_of_mem _ member)

theorem returnTypes_cons (scope : ScopeId) (n : Node) (nodes : List Node) :
    returnTypes env scope (n :: nodes) =
      if n.head.scope = scope then
        (match n.head.form with
          | .statement .returnStatement =>
            [Content.ofParts n.head.lists .argument (typesOf env n.children)]
          | _ => []) ++
          (if n.head.inner = scope then returnTypes env scope n.children else []) ++
          returnTypes env scope nodes
      else returnTypes env scope nodes := by
  cases n
  rw [returnTypes]
  rfl

/-- What return statements give to ask is the type of a node further down. -/
theorem asks_returned {scope : ScopeId} {n : Node} {content : Content (InferM Descriptor)}
    {m : InferM Descriptor} (returned : content ∈ returnTypes env scope n.children)
    (member : m ∈ content.toList) : ∃ d ∈ n.descendants, d.typeOf env = m := by
  induction n using children_induction with
  | step n ih =>
    have inside : ∀ nodes : List Node, (∀ c ∈ nodes, c ∈ n.children) →
        content ∈ returnTypes env scope nodes → ∃ d ∈ n.descendants, d.typeOf env = m := by
      intro nodes
      induction nodes with
      | nil =>
        intro _ none
        rw [returnTypes] at none
        cases none
      | cons c nodes rest =>
        intro children found
        have child := children c List.mem_cons_self
        have later := rest fun c member => children c (List.mem_cons_of_mem _ member)
        rw [returnTypes_cons] at found
        split at found
        · rcases List.mem_append.mp found with found | found
          · rcases List.mem_append.mp found with found | found
            · split at found
              · rw [List.mem_singleton.mp found] at member
                obtain ⟨d, grandchild, same⟩ := asks_child member
                have below := mem_descendants_of_child grandchild
                exact ⟨d, mem_descendants.mpr ⟨c, child, mem_preorder.mpr (.inr below)⟩, same⟩
              · cases found
            · split at found
              · obtain ⟨d, below, same⟩ := ih c child found
                exact ⟨d, mem_descendants.mpr ⟨c, child, mem_preorder.mpr (.inr below)⟩, same⟩
              · cases found
          · exact later found
        · exact later found
    exact inside n.children (fun c child => child) returned

/-- A rule asks only about what is below its node. -/
theorem parts_consult (n : Node) : (n.parts env).Consult sort env (· ∈ n.descendants) where
  types := by
    intro slot m member
    obtain ⟨c, child, rfl⟩ := asks_child member
    exact .type (mem_descendants_of_child child) fun _ holds => holds
  receiver := by
    refine receiverType_consults ?_
    intro c child d grandchild
    have below := mem_descendants_of_child grandchild
    exact mem_descendants.mpr ⟨c, child, mem_preorder.mpr (.inr below)⟩
  returned := by
    intro scope content returned m member
    obtain ⟨d, below, rfl⟩ := asks_returned returned member
    exact .type below fun _ holds => holds

end Node

namespace Environment

variable {sort : Descriptor → Prop} {env : Environment} {asked : Node → Prop}

theorem listedType_consults {n : Node} (member : asked n) :
    Consults sort env asked (fun _ => True) (env.listedType n) := by
  unfold listedType
  split
  · next binding _ =>
    exact .name binding.scope (some binding.name.toJson) .definition fun _ _ => trivial
  · exact .type member fun _ _ => trivial

theorem enterAll_consults {recursive : Bool} {owner : NodeId} {scope : ScopeId} {nodes : List Node}
    (each : ∀ n ∈ nodes, ∀ listing,
      Consults sort env asked (fun _ => True) (env.enter recursive owner scope n listing))
    (listing : Listing) :
    Consults sort env asked (fun _ => True) (env.enterAll recursive owner scope nodes listing) := by
  induction nodes generalizing listing with
  | nil =>
    rw [enterAll]
    exact .pure trivial
  | cons n nodes ih =>
    rw [enterAll]
    refine .bind (each n List.mem_cons_self listing) fun entered _ => ?_
    exact ih (fun m member => each m (List.mem_cons_of_mem _ member)) entered

theorem enter_consults {n : Node} (inside : ∀ m ∈ n.preorder, asked m) (recursive : Bool)
    (owner : NodeId) (scope : ScopeId) (listing : Listing) :
    Consults sort env asked (fun _ => True) (env.enter recursive owner scope n listing) := by
  induction n using Node.children_induction generalizing owner scope listing with
  | step n ih =>
    have below : ∀ owner scope listing, Consults sort env asked (fun _ => True)
        (env.enterAll recursive owner scope n.children listing) := by
      intro owner scope listing
      refine enterAll_consults ?_ listing
      intro c child
      refine ih c child ?_ owner scope
      intro m member
      exact inside m (Node.mem_preorder.mpr (.inr (Node.mem_descendants.mpr ⟨c, child, member⟩)))
    have self := inside n n.mem_preorder_self
    cases n with
    | mk head children =>
      rw [enter]
      split
      · exact .pure trivial
      · have last : ∀ listing, Consults sort env asked (fun _ => True)
            (if head.inner = scope then env.enterAll recursive owner scope children listing
              else pure listing) := by
          intro listing
          split
          · exact below owner scope listing
          · exact .pure trivial
        dsimp only
        split
        · refine .bind (listedType_consults self) fun type _ => ?_
          split
          · rw [map_eq_pure_bind]
            refine .bind (P := fun _ => True)
              (.bind (below head.id head.inner []) fun inner _ => .pure trivial) fun inner _ => ?_
            exact .bind (P := fun _ => True) (.pure trivial) fun listing _ => last listing
          · refine .bind (P := fun _ => True) (.pure trivial) fun inner _ => ?_
            exact .bind (P := fun _ => True) (.pure trivial) fun listing _ => last listing
        · split
          · exact .bind (P := fun _ => True) (.pure trivial) fun listing _ => last listing
          · refine .bind (P := fun _ => True) (.ofFault fun _ _ => trivial) fun name _ => ?_
            refine .bind (.name head.scope (some name.toJson) .definition fun _ _ => trivial)
              fun type (_ : True) => ?_
            exact .bind (P := fun _ => True) (.pure trivial) fun listing _ => last listing
        · exact .bind (P := fun _ => True) (.pure trivial) fun listing _ => last listing

/-- Listing the names of a node's scope consults. -/
theorem listing_consults {n : Node} (inside : ∀ m ∈ n.preorder, asked m) (recursive : Bool) :
    Consults sort env asked (fun _ => True) (env.listing recursive n) := by
  refine enterAll_consults ?_ []
  intro c child
  refine enter_consults ?_ recursive n.id n.head.inner
  intro m member
  exact inside m (Node.mem_preorder.mpr (.inr (Node.mem_descendants.mpr ⟨c, child, member⟩)))

end Environment

end ScriptTypes
