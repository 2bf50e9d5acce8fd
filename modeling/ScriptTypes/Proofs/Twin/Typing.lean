import ScriptTypes.Proofs.Twin.Lockstep

/-! Two trees are twins if they have the same shape and agree, up to the renaming, on all that
inference reads of them: not on locations, on labels and keys, on what literals stand for beyond
their type, or on how nodes came to be written. Twin nodes have the same types in twin states. -/

namespace ScriptTypes

variable {r : Renaming}

namespace Content

variable {α β : Type} {R : α → β → Prop}

/-- Both hold nothing, one thing or a list, and what they hold is related. -/
inductive Rel (R : α → β → Prop) : Content α → Content β → Prop where
  | empty : Rel R .empty .empty
  | one {a : α} {b : β} : R a b → Rel R (.one a) (.one b)
  | many {as : List α} {bs : List β} : List.Forall₂ R as bs → Rel R (.many as) (.many bs)

theorem Rel.mono {S : α → β → Prop} {content : Content α} {content' : Content β}
    (related : Rel R content content') (weaker : ∀ a b, R a b → S a b) : Rel S content content' := by
  cases related with
  | empty => exact .empty
  | one holds => exact .one (weaker _ _ holds)
  | many each => exact .many (each.imp weaker)

theorem Rel.toList {content : Content α} {content' : Content β} (related : Rel R content content') :
    List.Forall₂ R content.toList content'.toList := by
  cases related with
  | empty => exact .nil
  | one here => exact .cons here .nil
  | many each => exact each

theorem Rel.and {P : α → Prop} {content : Content α} {content' : Content β}
    (related : Rel R content content') (holds : ∀ a ∈ content.toList, P a) :
    Rel (fun a b => R a b ∧ P a) content content' := by
  cases related with
  | empty => exact .empty
  | one here => exact .one ⟨here, holds _ (List.mem_singleton.mpr rfl)⟩
  | many each =>
    apply Rel.many
    exact ((List.forall₂_and_left _ _).mpr ⟨holds, each⟩).imp fun _ _ here => here.symm

theorem Rel.ofParts (lists : List Slot) (slot : Slot) {parts : List (Option Slot × α)}
    {parts' : List (Option Slot × β)}
    (each : List.Forall₂ (fun part part' => part'.1 = part.1 ∧ (part.1 = some slot → R part.2 part'.2))
      parts parts') :
    Rel R (Content.ofParts lists slot parts) (Content.ofParts lists slot parts') := by
  unfold Content.ofParts
  split
  · apply Rel.many
    induction each with
    | nil => exact .nil
    | @cons part part' _ _ related _ ih =>
      by_cases here : part.1 = some slot
      · simpa [here, related.1] using ⟨related.2 here, ih⟩
      · simpa [here, related.1] using ih
  · induction each with
    | nil => exact .empty
    | @cons part part' _ _ related _ ih =>
      obtain ⟨held, a⟩ := part
      obtain ⟨held', b⟩ := part'
      obtain ⟨rfl, related⟩ := related
      by_cases here : some slot = held'
      · subst here
        simpa using Rel.one (related rfl)
      · simpa [List.lookup_cons, beq_eq_false_iff_ne.mpr here] using ih

end Content

theorem InStep.sole {α β : Type} {R : α → β → Prop} {content : Content α} {content' : Content β}
    (held : content.Rel R content') : InStep r R (InferM.sole content) (InferM.sole content') := by
  cases held with
  | one related => exact .pure related
  | _ => exact .fault .notOneNode

/-- Whether two literals are of one type. -/
def LiteralValue.Alike : LiteralValue → LiteralValue → Prop
  | text _, text _ => True
  | left, right => left = right

/-- The forms agree on what is read of a node in this slot. Names of labels and values of texts are
read of the properties of members only. -/
inductive Form.Twin (r : Renaming) (slot : Option Slot) : Form → Form → Prop where
  | function (expression : Bool) (own declarator : Option Binding) :
      Twin r slot (.function expression own declarator)
        (.function expression (own.map (·.rename r)) (declarator.map (·.rename r)))
  | identifier {field field' : Option Json} {role : Role} :
      (role ≠ .label → Name.ofField field' = (Name.ofField field).map r) →
      (role = .label → slot = some .property → field' = field) →
      Twin r slot (.identifier field role) (.identifier field' role)
  | literal (regex : Bool) {value value' : LiteralValue} :
      value.Alike value' → (slot = some .property → value' = value) →
      Twin r slot (.literal regex value) (.literal regex value')
  | same {form : Form} : (∀ expression own declarator, form ≠ .function expression own declarator) →
      (∀ field role, form ≠ .identifier field role) → Twin r slot form form

structure Head.Twin (r : Renaming) (left right : Head) : Prop where
  id : right.id = left.id
  form : Form.Twin r left.slot left.form right.form
  parent : right.parent = left.parent
  slot : right.slot = left.slot
  scope : right.scope = left.scope
  inner : right.inner = left.inner
  lists : right.lists = left.lists
  located : (∃ location, Location.ofJson left.raw = .ok location) ∧
    ∃ location, Location.ofJson right.raw = .ok location

/-- An identifier in a slot has the role that a node of this form gives it, as far as the rules rely
on it: what is called is no label, and the property of a member is one unless it is computed. -/
def Node.RolesFit (n : Node) : Prop :=
  ∀ c ∈ n.children, ∀ field role, c.form = .identifier field role →
    (c.head.slot = some .callee → role ≠ .label) ∧
    (c.head.slot = some .property → n.form = .member false → role = .label)

inductive Node.Twin (r : Renaming) : Node → Node → Prop where
  | mk {head head' : Head} {children children' : List Node} :
      head.Twin r head' → List.Forall₂ (Node.Twin r) children children' →
      (Node.mk head children).RolesFit → Node.Twin r (.mk head children) (.mk head' children')

namespace Node.Twin

variable {n n' : Node}

theorem head (twin : n.Twin r n') : n.head.Twin r n'.head := by
  cases twin with
  | mk head _ _ => exact head

theorem children (twin : n.Twin r n') : List.Forall₂ (Node.Twin r) n.children n'.children := by
  cases twin with
  | mk _ children _ => exact children

theorem rolesFit (twin : n.Twin r n') : n.RolesFit := by
  cases twin with
  | mk _ _ fit => exact fit

theorem form (twin : n.Twin r n') : Form.Twin r n.head.slot n.form n'.form := twin.head.form

theorem children_mem (twin : n.Twin r n') :
    List.Forall₂ (fun c c' => c ∈ n.children ∧ c.Twin r c') n.children n'.children :=
  (List.forall₂_and_left _ _).mpr ⟨fun _ child => child, twin.children⟩

theorem held (twin : n.Twin r n') (slot : Slot) :
    Content.Rel (fun c c' => c.Twin r c' ∧ c ∈ n.children ∧ c.head.slot = some slot)
      (n.content slot) (n'.content slot) := by
  unfold Node.content
  rw [twin.head.lists]
  apply Content.Rel.ofParts
  apply List.forall₂_map_left_iff.mpr
  apply List.forall₂_map_right_iff.mpr
  exact twin.children_mem.imp fun _ _ child =>
    ⟨child.2.head.slot, fun stands => ⟨child.2, child.1, stands⟩⟩

theorem content (twin : n.Twin r n') (slot : Slot) :
    Content.Rel (Node.Twin r) (n.content slot) (n'.content slot) :=
  (twin.held slot).mono fun _ _ child => child.1

theorem preorder (twin : n.Twin r n') : List.Forall₂ (Node.Twin r) n.preorder n'.preorder := by
  induction n using children_induction generalizing n' with
  | step n ih =>
    rw [preorder_eq, preorder_eq, descendants, descendants, preorderAll_eq_flatMap,
      preorderAll_eq_flatMap]
    exact .cons twin (List.rel_flatMap twin.children_mem fun c _ child => ih c child.1 child.2)

theorem postorder (twin : n.Twin r n') : List.Forall₂ (Node.Twin r) n.postorder n'.postorder := by
  induction n using children_induction generalizing n' with
  | step n ih =>
    rw [postorder_eq, postorder_eq, descendantsUp, descendantsUp, postorderAll_eq_flatMap,
      postorderAll_eq_flatMap]
    apply List.rel_append
    · exact List.rel_flatMap twin.children_mem fun c _ child => ih c child.1 child.2
    · exact .cons twin .nil

theorem descendants (twin : n.Twin r n') :
    List.Forall₂ (Node.Twin r) n.descendants n'.descendants := by
  rw [Node.descendants, Node.descendants, preorderAll_eq_flatMap, preorderAll_eq_flatMap]
  exact List.rel_flatMap twin.children fun _ _ child => child.preorder

theorem descendantsUp (twin : n.Twin r n') :
    List.Forall₂ (Node.Twin r) n.descendantsUp n'.descendantsUp := by
  rw [Node.descendantsUp, Node.descendantsUp, postorderAll_eq_flatMap, postorderAll_eq_flatMap]
  exact List.rel_flatMap twin.children fun _ _ child => child.postorder

end Node.Twin

theorem Form.Twin.of_identifier {slot : Option Slot} {field : Option Json} {role : Role} {f' : Form}
    (twin : Form.Twin r slot (.identifier field role) f') :
    ∃ field', f' = .identifier field' role ∧
      (role ≠ .label → Name.ofField field' = (Name.ofField field).map r) := by
  cases twin with
  | identifier named _ => exact ⟨_, rfl, named⟩
  | same _ other => exact absurd rfl (other field role)

theorem Form.Twin.kind {slot : Option Slot} {f f' : Form} (twin : f.Twin r slot f') :
    f'.kind = f.kind := by
  cases twin with
  | function expression own declarator => cases expression <;> rfl
  | _ => rfl

theorem Node.Twin.kind {n n' : Node} (twin : n.Twin r n') : n'.kind = n.kind := twin.form.kind

theorem Head.Twin.report {head head' : Head} (twin : head.Twin r head') {α : Type}
    (problem : String → Problem) : InStep r (Eq : α → α → Prop)
      (throwThe Failure (.about (problem head.kind.text) head.raw))
      (throwThe Failure (.about (problem head'.kind.text) head'.raw)) := by
  obtain ⟨⟨_, here⟩, ⟨_, there⟩⟩ := twin.located
  apply InStep.throw
  rw [Failure.cause_about here, Failure.cause_about there, Head.kind, Head.kind, twin.form.kind]

theorem Head.Twin.operation {head head' : Head} (twin : head.Twin r head') {α : Type}
    (operator : Json) (symbol? : String → Option α) :
    InStep r Eq (head.operation operator symbol?) (head'.operation operator symbol?) := by
  have unknown : InStep r (Eq : α → α → Prop) _ _ :=
    twin.report fun kind => .unknownOperator kind operator
  cases operator with
  | list items => exact .fault .compositeKey
  | object fields => exact .fault .compositeKey
  | text symbol =>
    simp only [Head.operation]
    cases symbol? symbol with
    | some a => exact .pure rfl
    | none => exact unknown
  | _ => exact unknown

theorem Head.Twin.literalType {head head' : Head} (twin : head.Twin r head') (regex : Bool)
    {value value' : LiteralValue} (alike : value.Alike value') :
    InStep r Eq (head.literalType regex value) (head'.literalType regex value') := by
  unfold Head.literalType
  split
  · exact .pure rfl
  · cases value <;> cases value' <;> cases alike
    all_goals first | exact .pure rfl | exact twin.report fun kind => .missingRule kind _

theorem memberName_twin {n n' : Node} (twin : n.Twin r n') {computed : Bool}
    (member : n.form = .member computed) :
    memberName computed (n'.content .property) = memberName computed (n.content .property) := by
  have held := twin.held .property
  generalize n.content .property = here at held
  generalize n'.content .property = there at held
  cases held with
  | empty => rfl
  | many _ => rfl
  | @one c c' child =>
    obtain ⟨child, inside, stands⟩ := child
    have form := child.form
    have fits := twin.rolesFit c inside
    rw [stands] at form
    simp only [memberName]
    generalize c.form = f at form fits
    generalize c'.form = f' at form
    cases form with
    | function expression own declarator => rfl
    | @identifier field field' role named shown =>
      cases computed with
      | true => rfl
      | false => rw [shown ((fits field role rfl).2 stands member) rfl]
    | literal regex alike shown => rw [shown rfl]
    | same _ _ => rfl

theorem Name.ofField_eq_missing {field : Option Json} :
    ofField field = .error .nameMissing ↔ field = none := by
  cases field with
  | none => simp [ofField]
  | some j => cases j <;> simp [ofField, ofJson?]

theorem Name.ofField_eq_text {field : Option Json} {s : String} :
    ofField field = .ok (.text s) ↔ field = some (.text s) := by
  cases field with
  | none => simp [ofField]
  | some j => cases j <;> simp [ofField, ofJson?]

section

variable {field field' : Option Json} (named : Name.ofField field' = (Name.ofField field).map r)

include named

theorem Renaming.missing_iff : field' = none ↔ field = none := by
  rw [← Name.ofField_eq_missing, ← Name.ofField_eq_missing, named]
  cases Name.ofField field <;> simp [Except.map]

theorem Renaming.array_iff : field' = some (.text "Array") ↔ field = some (.text "Array") := by
  rw [← Name.ofField_eq_text, ← Name.ofField_eq_text, named]
  cases Name.ofField field <;> simp [Except.map, r.eq_array_iff]

end

theorem newType_other {c : Node} {field : Option Json} {role : Role}
    (form : c.form = .identifier field role) (named : field ≠ none)
    (other : field ≠ some (.text "Array")) : newType (.one c) = pure .object := by
  simp only [newType, form]
  split
  · next same => exact absurd (Form.identifier.inj same).1 named
  · next same => exact absurd (Form.identifier.inj same).1 other
  · rfl

theorem newType_twin {n n' : Node} (twin : n.Twin r n') :
    InStep r Eq (newType (n.content .callee)) (newType (n'.content .callee)) := by
  have held := twin.held .callee
  generalize n.content .callee = here at held
  generalize n'.content .callee = there at held
  cases held with
  | empty => exact .pure rfl
  | many _ => exact .pure rfl
  | @one c c' child =>
    obtain ⟨child, inside, stands⟩ := child
    have form := child.form
    have fits := twin.rolesFit c inside
    generalize mine : c.form = f at form fits
    generalize theirs : c'.form = f' at form
    cases form with
    | @identifier field field' role named shown =>
      have called := named ((fits field role rfl).1 stands)
      have none := Renaming.missing_iff called
      have list := Renaming.array_iff called
      by_cases missing : field = .none
      · simp only [newType, mine, theirs, missing, none.mpr missing]
        exact .fault .nameMissing
      · by_cases array : field = some (.text "Array")
        · simp only [newType, mine, theirs, array, list.mpr array]
          exact .pure rfl
        · rw [newType_other mine missing array,
            newType_other theirs (mt none.mp missing) (mt list.mp array)]
          exact .pure rfl
    | function expression own declarator =>
      simp only [newType, mine, theirs]
      exact .pure rfl
    | literal regex alike shown =>
      simp only [newType, mine, theirs]
      exact .pure rfl
    | same _ _ =>
      simp only [newType, mine, theirs]
      split
      · exact .fault .nameMissing
      · exact .pure rfl
      · exact .pure rfl

/-- What a call names: the object and the method, if it is one of a method. -/
theorem methodCall_twin {callee callee' : Content Node} (held : callee.Rel (Node.Twin r) callee') :
    InStep r (Option.Rel fun call call' => call.1.Rel (Node.Twin r) call'.1 ∧ call'.2 = call.2)
      (InferM.ofFault (methodCall callee)) (InferM.ofFault (methodCall callee')) := by
  cases held with
  | empty => exact .pure .none
  | many _ => exact .pure .none
  | @one c c' twin =>
    have form := twin.form
    have member := fun computed => @memberName_twin r c c' twin computed
    have object := twin.content .object
    simp only [methodCall]
    generalize c.form = f at form member
    generalize c'.form = f' at form
    cases form with
    | function expression own declarator => exact .pure .none
    | identifier named shown => exact .pure .none
    | literal regex alike shown => exact .pure .none
    | same _ _ =>
      split
      · rw [member false rfl]
        cases memberName false (c.content .property) with
        | error f => exact .fault f
        | ok method =>
          cases method with
          | none => exact .pure .none
          | some method => exact .pure (.some ⟨object, rfl⟩)
      · exact .pure .none

/-- All that a rule can ask about the parts of its node is in step. -/
structure Parts.Twin (r : Renaming) (parts parts' : Parts) : Prop where
  types : ∀ slot, (parts.types slot).Rel (InStep r Eq) (parts'.types slot)
  receiver : InStep r Eq parts.receiver parts'.receiver
  returned : ∀ scope,
    List.Forall₂ (Content.Rel (InStep r Eq)) (parts.returned scope) (parts'.returned scope)

namespace Parts.Twin

variable {parts parts' : Parts}

theorem type (twin : parts.Twin r parts') (slot : Slot) :
    InStep r Eq (parts.type slot) (parts'.type slot) :=
  (InStep.sole (twin.types slot)).bind fun _ _ derived => derived

theorem functionType (twin : parts.Twin r parts') (scope : ScopeId) :
    InStep r Eq (parts.functionType scope) (parts'.functionType scope) := by
  apply InStep.andThen
  · apply InStep.inTurn
    apply List.forall₂_map_left_iff.mpr
    apply List.forall₂_map_right_iff.mpr
    apply (twin.returned scope).imp
    intro content content' held
    cases held with
    | empty => exact .pure rfl
    | one derived => exact derived
    | many each => exact .fault .notOneNode
  · intro types
    exact .pure rfl

theorem lastType (twin : parts.Twin r parts') (slot : Slot) :
    InStep r Eq (parts.lastType slot) (parts'.lastType slot) := by
  have held := twin.types slot
  unfold Parts.lastType
  generalize parts.types slot = types at held
  generalize parts'.types slot = types' at held
  cases held with
  | empty => exact .fault .notList
  | one _ => exact .fault .notList
  | @many types types' each =>
    have last := List.rel_reverse each
    simp only [← List.head?_reverse]
    generalize types.reverse = back at last
    generalize types'.reverse = back' at last
    cases last with
    | nil => exact .fault .emptySequence
    | cons derived _ => exact derived

theorem elementsType (twin : parts.Twin r parts') (slot : Slot) :
    InStep r Eq (parts.elementsType slot) (parts'.elementsType slot) := by
  have held := twin.types slot
  unfold Parts.elementsType
  generalize parts.types slot = types at held
  generalize parts'.types slot = types' at held
  cases held with
  | empty => exact .pure rfl
  | one _ => exact .fault .notList
  | many each =>
    apply (InStep.inTurn each).andThen
    intro elements
    split
    · exact .pure rfl
    · exact .pure rfl

end Parts.Twin

section

variable {env env' : Environment} {parts parts' : Parts} {n n' : Node}

theorem sizeType_twin (envs : env.Twin r env') {computed : Bool} {property property' : Content Node}
    (same : memberName computed property' = memberName computed property) :
    InStep r Eq (env.sizeType computed property) (env'.sizeType computed property') := by
  unfold Environment.sizeType
  rw [same, envs.settings]
  apply (InStep.ofFault _).andThen
  intro name
  apply (InStep.ofFault _).andThen
  intro sized
  exact .pure rfl

theorem memberType_twin (envs : env.Twin r env') (twin : parts.Twin r parts') {computed : Bool}
    {property property' : Content Node}
    (same : memberName computed property' = memberName computed property) :
    InStep r Eq (env.memberType computed property parts)
      (env'.memberType computed property' parts') := by
  have sized := sizeType_twin envs same
  unfold Environment.memberType
  split
  · apply (twin.type .object).andThen
    intro object
    split
    · exact .pure rfl
    · exact .pure rfl
    · split
      · apply (twin.type .property).andThen
        intro index
        split
        · exact .pure rfl
        · exact sized
      · exact sized
  · exact sized

theorem callType_twin (twin : parts.Twin r parts') {callee callee' : Content Node}
    (held : callee.Rel (Node.Twin r) callee') :
    InStep r Eq (callType callee parts) (callType callee' parts') := by
  have called : InStep r Eq (do return (← parts.type .callee).result)
      (do return (← parts'.type .callee).result) :=
    (twin.type .callee).andThen fun type => .pure rfl
  have result : ∀ {f f' : Option Descriptor → InferM Descriptor},
      (∀ d, InStep r Eq (f (some d)) (f' (some d))) → InStep r Eq (f none) (f' none) →
        ∀ known, InStep r Eq (f known) (f' known) := by
    intro f f' found unknown known
    cases known with
    | some d => exact found d
    | none => exact unknown
  apply (methodCall_twin held).bind
  intro call call' same
  cases same with
  | none => exact (InStep.pure rfl).andThen (result (fun _ => .pure rfl) called)
  | @some call call' same =>
    obtain ⟨object, method⟩ := call
    obtain ⟨object', method'⟩ := call'
    obtain ⟨object, rfl⟩ := same
    cases object with
    | empty => exact (InStep.pure rfl).andThen (result (fun _ => .pure rfl) called)
    | one _ =>
      exact twin.receiver.andThen fun receiver =>
        (InStep.ofFault _).andThen (result (fun _ => .pure rfl) called)
    | many _ =>
      exact twin.receiver.andThen fun receiver =>
        (InStep.ofFault _).andThen (result (fun _ => .pure rfl) called)

theorem rule_twin (envs : env.Twin r env') (twin : n.Twin r n') (asks : parts.Twin r parts') :
    InStep r Eq (rule env n parts) (rule env' n' parts') := by
  have heads := twin.head
  have form := heads.form
  have member := fun computed => @memberName_twin r n n' twin computed
  change ∀ computed, n.head.form = _ → _ at member
  generalize mine : n.head.form = f at form member
  generalize theirs : n'.head.form = f' at form
  cases form with
  | function expression own declarator =>
    simp only [rule, mine, theirs, heads.inner]
    exact asks.functionType n.head.inner
  | identifier named shown =>
    simp only [rule, mine, theirs, heads.scope]
    exact envs.nameType n.head.scope named
  | literal regex alike shown =>
    simp only [rule, mine, theirs]
    exact heads.literalType regex alike
  | same plain other =>
    cases f <;> simp only [rule, mine, theirs]
    case statement => exact .pure rfl
    case function => exact absurd rfl (plain _ _ _)
    case identifier => exact absurd rfl (other _ _)
    case literal regex value =>
      apply heads.literalType regex
      cases value <;> simp [LiteralValue.Alike]
    case thisExpression => exact .pure rfl
    case assignment operator =>
      apply (heads.operation operator _).andThen
      intro assignment
      split
      · exact asks.type .right
      · apply (asks.type .left).andThen
        intro left
        exact (asks.type .right).andThen fun right => .pure rfl
    case unary operator =>
      apply (heads.operation operator _).andThen
      intro operation
      cases operation with
      | sign => exact (asks.type .argument).andThen fun argument => .pure rfl
      | _ => exact .pure rfl
    case binary operator =>
      apply (heads.operation operator _).andThen
      intro operation
      apply (asks.type .left).andThen
      intro left
      exact (asks.type .right).andThen fun right => .pure rfl
    case logical operator =>
      apply (heads.operation operator _).andThen
      intro _
      apply (asks.type .left).andThen
      intro left
      exact (asks.type .right).andThen fun right => .pure rfl
    case conditional =>
      apply (asks.type .consequent).andThen
      intro consequent
      exact (asks.type .alternate).andThen fun alternate => .pure rfl
    case update operator =>
      apply (heads.operation operator _).andThen
      intro _
      exact (asks.type .argument).andThen fun argument => .pure rfl
    case member computed => exact memberType_twin envs asks (member computed rfl)
    case call => exact callType_twin asks (twin.content .callee)
    case new => exact newType_twin twin
    case sequence => exact asks.lastType .expressions
    case array => exact asks.elementsType .elements
    case object => exact .pure rfl

section

variable {nodes nodes' : List Node}

theorem typesOf_twin (twins : List.Forall₂ (Node.Twin r) nodes nodes')
    (each : ∀ c ∈ nodes, ∀ c', c.Twin r c' → InStep r Eq (c.typeOf env) (c'.typeOf env'))
    (lists : List Slot) (slot : Slot) :
    (Content.ofParts lists slot (Node.typesOf env nodes)).Rel (InStep r Eq)
      (Content.ofParts lists slot (Node.typesOf env' nodes')) := by
  rw [Node.typesOf_eq_map, Node.typesOf_eq_map]
  apply Content.Rel.ofParts
  apply List.forall₂_map_left_iff.mpr
  apply List.forall₂_map_right_iff.mpr
  apply ((List.forall₂_and_left _ _).mpr ⟨fun _ listed => listed, twins⟩).imp
  rintro c c' ⟨listed, twin⟩
  exact ⟨twin.head.slot, fun _ => each c listed c' twin⟩

theorem receiverType_twin (twins : List.Forall₂ (Node.Twin r) nodes nodes')
    (each : ∀ n ∈ nodes, ∀ c ∈ n.children, ∀ c', c.Twin r c' →
      InStep r Eq (c.typeOf env) (c'.typeOf env')) :
    InStep r Eq (Node.receiverType env nodes) (Node.receiverType env' nodes') := by
  induction twins with
  | nil => exact .fault .notOneNode
  | @cons n n' nodes nodes' twin _ ih =>
    obtain ⟨head, children⟩ := n
    obtain ⟨head', children'⟩ := n'
    have heads := twin.head
    simp only [Node.head] at heads
    rw [Node.receiverType, Node.receiverType, heads.slot, heads.lists]
    split
    · have held := typesOf_twin twin.children (each _ List.mem_cons_self) head.lists .object
      exact (InStep.sole held).bind fun _ _ derived => derived
    · exact ih fun n listed => each n (List.mem_cons_of_mem _ listed)

theorem returned_twin (twin : n.Twin r n')
    (each : ∀ c ∈ n.children, ∀ c', c.Twin r c' → InStep r Eq (c.typeOf env) (c'.typeOf env')) :
    List.Forall₂ (Content.Rel (InStep r Eq))
      (match n.head.form with
        | .statement .returnStatement =>
          [Content.ofParts n.head.lists .argument (Node.typesOf env n.children)]
        | _ => [])
      (match n'.head.form with
        | .statement .returnStatement =>
          [Content.ofParts n'.head.lists .argument (Node.typesOf env' n'.children)]
        | _ => []) := by
  have held := typesOf_twin twin.children each n.head.lists .argument
  have form := twin.head.form
  rw [twin.head.lists]
  generalize n.head.form = f at form
  generalize n'.head.form = f' at form
  cases form with
  | same _ _ =>
    split
    · exact .cons held .nil
    · exact .nil
  | _ => exact .nil

/-- What a list of nodes returns, given what their children return. -/
theorem returnTypes_cons_twin (scope : ScopeId) (twins : List.Forall₂ (Node.Twin r) nodes nodes')
    (each : ∀ n ∈ nodes, ∀ c ∈ n.children, ∀ c', c.Twin r c' →
      InStep r Eq (c.typeOf env) (c'.typeOf env'))
    (inside : ∀ n ∈ nodes, ∀ n', n.Twin r n' → List.Forall₂ (Content.Rel (InStep r Eq))
      (Node.returnTypes env scope n.children) (Node.returnTypes env' scope n'.children)) :
    List.Forall₂ (Content.Rel (InStep r Eq)) (Node.returnTypes env scope nodes)
      (Node.returnTypes env' scope nodes') := by
  induction twins with
  | nil => exact .nil
  | @cons n n' nodes nodes' twin _ ih =>
    have rest := ih (fun n listed => each n (List.mem_cons_of_mem _ listed))
      fun n listed => inside n (List.mem_cons_of_mem _ listed)
    rw [Node.returnTypes_cons, Node.returnTypes_cons, twin.head.scope, twin.head.inner]
    split
    · apply List.rel_append _ rest
      apply List.rel_append (returned_twin twin (each n List.mem_cons_self))
      split
      · exact inside n List.mem_cons_self n' twin
      · exact .nil
    · exact rest

theorem returnTypes_twin (scope : ScopeId) (twin : n.Twin r n')
    (below : ∀ m ∈ n.descendants, ∀ m', m.Twin r m' → InStep r Eq (m.typeOf env) (m'.typeOf env')) :
    List.Forall₂ (Content.Rel (InStep r Eq)) (Node.returnTypes env scope n.children)
      (Node.returnTypes env' scope n'.children) := by
  induction n using Node.children_induction generalizing n' with
  | step n ih =>
    have deep : ∀ c ∈ n.children, ∀ m ∈ c.descendants, m ∈ n.descendants :=
      fun c child m inner => Node.mem_descendants.mpr ⟨c, child, Node.mem_preorder.mpr (.inr inner)⟩
    apply returnTypes_cons_twin scope twin.children
    · intro c child m grandchild
      exact below m (deep c child m (Node.mem_descendants_of_child grandchild))
    · intro c child c' same
      exact ih c child same fun m inner => below m (deep c child m inner)

theorem parts_twin (twin : n.Twin r n')
    (below : ∀ m ∈ n.descendants, ∀ m', m.Twin r m' → InStep r Eq (m.typeOf env) (m'.typeOf env')) :
    (n.parts env).Twin r (n'.parts env') where
  types slot := by
    simp only [Node.parts, twin.head.lists]
    apply typesOf_twin twin.children
    intro c child
    exact below c (Node.mem_descendants_of_child child)
  receiver := by
    apply receiverType_twin twin.children
    intro c child m grandchild
    have deep := Node.mem_preorder.mpr (.inr (Node.mem_descendants_of_child grandchild))
    exact below m (Node.mem_descendants.mpr ⟨c, child, deep⟩)
  returned scope := returnTypes_twin scope twin below

end

/-- Twin nodes have the same types. -/
theorem typeOf_twin (envs : env.Twin r env') (twin : n.Twin r n') :
    InStep r Eq (n.typeOf env) (n'.typeOf env') := by
  induction n using Node.descendants_induction generalizing n' with
  | step n ih =>
    have derived := rule_twin envs twin (parts_twin twin fun m below m' => ih m below)
    have form := twin.form
    rcases n.identifier_or_other with ⟨field, role, mine⟩ | other
    · rw [mine] at form
      obtain ⟨field', theirs, named⟩ := form.of_identifier
      rw [Node.typeOf_identifier mine, Node.typeOf_identifier theirs, twin.head.scope]
      exact envs.nameType n.head.scope named
    · have same : ∀ field role, n'.form ≠ .identifier field role := by
        intro field role theirs
        rw [theirs] at form
        generalize mine : n.form = f at form
        cases form with
        | identifier _ _ => exact other _ _ mine
        | same _ other => exact other field role rfl
      rw [Node.typeOf_other other, Node.typeOf_other same, Node.id, Node.id, twin.head.id]
      exact .remembering n.head.id derived

end

end ScriptTypes
