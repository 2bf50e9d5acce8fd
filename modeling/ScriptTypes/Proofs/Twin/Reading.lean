import ScriptTypes.Proofs.Tree.Grammar
import ScriptTypes.Proofs.Twin.Running

/-! Two values are twins if the nodes that their slots lead to agree on what inference reads of
them. If one of them is read, so is the other, as its twin; the scopes of twin trees are twins as
well, so that two such values make twin programs. -/

namespace ScriptTypes

variable {r : Renaming}

def Kind.operating : List Kind :=
  [.assignmentExpression, .unaryExpression, .binaryExpression, .logicalExpression, .updateExpression]

namespace Json

def isComputed (raw : Json) : Bool := ((raw.get? "computed").getD .null).isSet

/-- The two nodes of this kind agree on all that is read of them in this slot, apart from what their
own slots hold. -/
structure Agree (r : Renaming) (slot : Option Slot) (role : Role) (kind : Kind) (raw raw' : Json) :
    Prop where
  left : raw.IsOf kind
  right : raw'.IsOf kind
  located : raw.Located → raw'.Located
  computed : raw'.isComputed = raw.isComputed
  operator : kind ∈ Kind.operating →
    (raw'.get? "operator").getD (.text "") = (raw.get? "operator").getD (.text "")
  name : kind = .identifier →
    Form.Twin r slot (.identifier (raw.get? "name") role) (.identifier (raw'.get? "name") role)
  literal : kind = .literal →
    Form.Twin r slot
      (.literal (raw.get? "regex").isSome (.ofJson ((raw.get? "value").getD .null)))
      (.literal (raw'.get? "regex").isSome (.ofJson ((raw'.get? "value").getD .null)))

/-- The values of a slot agree on all that is read of them, and so do the values below. Nulls in lists
are nothing. -/
inductive Twin (r : Renaming) : Option Slot → Role → Json → Json → Prop where
  | null {slot : Option Slot} {role : Role} : Twin r slot role .null .null
  | nil {slot : Option Slot} {role : Role} : Twin r slot role (.list []) (.list [])
  | cons {slot : Option Slot} {role : Role} {item item' : Json} {items items' : List Json} :
      Twin r slot role item item' → Twin r slot role (.list items) (.list items') →
      Twin r slot role (.list (item :: items)) (.list (item' :: items'))
  | nullLeft {slot : Option Slot} {role : Role} {items items' : List Json} :
      Twin r slot role (.list items) (.list items') →
      Twin r slot role (.list (.null :: items)) (.list items')
  | nullRight {slot : Option Slot} {role : Role} {items items' : List Json} :
      Twin r slot role (.list items) (.list items') →
      Twin r slot role (.list items) (.list (.null :: items'))
  | node {slot : Option Slot} {role : Role} {kind : Kind} {fields fields' : List (String × Json)} :
      Agree r slot role kind (.object fields) (.object fields') →
      (∀ inner ∈ kind.slots, Twin r (some inner) (kind.role (Json.object fields).isComputed inner)
        ((fields.lookup inner.text).getD .null) ((fields'.lookup inner.text).getD .null)) →
      Twin r slot role (.object fields) (.object fields')

end Json

def Node.NotLabel (n : Node) : Prop := ∀ field, n.form ≠ .identifier field .label

theorem Binding.ofContent_twin {content content' : Content Node} {bound : Option Binding}
    (held : content.Rel (fun n n' => n.Twin r n' ∧ n.NotLabel) content')
    (found : ofContent content = .ok bound) :
    ofContent content' = .ok (bound.map (·.rename r)) := by
  cases held with
  | empty =>
    cases found
    rfl
  | many _ => cases found
  | @one n n' twin =>
    obtain ⟨twin, notLabel⟩ := twin
    have form := twin.form
    simp only [ofContent] at found ⊢
    rw [twin.head.scope]
    generalize mine : n.form = f at form found
    generalize n'.form = f' at form
    cases form with
    | function expression own declarator => cases found
    | literal regex alike shown => cases found
    | @identifier field field' role named shown =>
      have called := named fun label => notLabel field (label ▸ mine)
      dsimp only at found ⊢
      rw [called]
      cases known : Name.ofField field with
      | error fault =>
        rw [known] at found
        cases found
      | ok name =>
        rw [known] at found
        cases found
        rfl
    | same _ other =>
      split at found
      · exact absurd rfl (other _ _)
      · cases found

structure Place.Twin (r : Renaming) (place place' : Place) : Prop where
  parent : place'.parent = place.parent
  slot : place'.slot = place.slot
  scope : place'.scope = place.scope
  role : place'.role = place.role
  declarator : place.declarator.Rel (fun n n' => n.Twin r n' ∧ n.NotLabel) place'.declarator

structure Opening.Twin (r : Renaming) (o o' : Opening) : Prop where
  id : o'.id = o.id
  kind : o'.kind = o.kind
  inner : o'.inner = o.inner
  place : o.place.Twin r o'.place
  agree : Json.Agree r o.place.slot o.place.role o.kind o.raw o'.raw
  located : o.raw.Located

def Opening.Suits (o : Opening) (c : Node) : Prop :=
  ∀ slot, c.head.slot = some slot → ∀ field role, c.form = .identifier field role →
    role = o.kind.role o.raw.isComputed slot

structure Reading.Twin (r : Renaming) (o : Opening) (reading reading' : Reading) : Prop where
  children : List.Forall₂ (fun c c' => c.Twin r c' ∧ o.Suits c) reading.children reading'.children
  lists : reading'.lists = reading.lists

namespace Reading.Twin

variable {o : Opening} {reading reading' : Reading}

theorem content (twin : Reading.Twin r o reading reading') (slot : Slot) :
    (reading.content slot).Rel
      (fun c c' => c.Twin r c' ∧ o.Suits c ∧ c.head.slot = some slot) (reading'.content slot) := by
  unfold Reading.content
  rw [twin.lists]
  apply Content.Rel.ofParts
  apply List.forall₂_map_left_iff.mpr
  apply List.forall₂_map_right_iff.mpr
  exact twin.children.imp fun _ _ child =>
    ⟨child.1.head.slot, fun stands => ⟨child.1, child.2, stands⟩⟩

/-- Where identifiers are definitions, they are no labels. -/
theorem name (twin : Reading.Twin r o reading reading') (defining : .id ∈ o.kind.definingSlots) :
    (reading.content .id).Rel (fun c c' => c.Twin r c' ∧ c.NotLabel) (reading'.content .id) := by
  apply (twin.content .id).mono
  rintro c c' ⟨child, suits, stands⟩
  refine ⟨child, ?_⟩
  intro field form
  have role := suits .id stands field .label form
  rw [(o.kind.role_eq_definition_iff _ _).mpr defining] at role
  cases role

theorem add (twin : Reading.Twin r o reading reading') (slot : Slot) {content content' : Content Node}
    (held : content.Rel (fun c c' => c.Twin r c' ∧ o.Suits c) content') :
    Reading.Twin r o (reading.add slot content) (reading'.add slot content') := by
  cases held with
  | empty => exact ⟨List.rel_append twin.children .nil, twin.lists⟩
  | one child => exact ⟨List.rel_append twin.children (.cons child .nil), twin.lists⟩
  | many each =>
    refine ⟨List.rel_append twin.children each, ?_⟩
    simp only [Reading.add, twin.lists]

end Reading.Twin

theorem Kind.role_callee (kind : Kind) (computed : Bool) : kind.role computed .callee = .reference := by
  cases kind with
  | statement kind => cases kind <;> rfl
  | _ => rfl

theorem Kind.role_property {kind : Kind} {computed : Bool} (member : kind = .memberExpression)
    (plain : computed = false) : kind.role computed .property = .label := by
  subst member plain
  rfl

theorem Opening.form_member {o : Opening} {reading : Reading} {computed : Bool}
    (formed : o.form reading = .ok (.member computed)) :
    o.kind = .memberExpression ∧ o.raw.isComputed = computed := by
  have kind : o.kind = .memberExpression := (o.form_eq_ok formed).1.symm
  refine ⟨kind, ?_⟩
  simp only [form, kind] at formed
  cases formed
  rfl

namespace Opening.Twin

variable {o o' : Opening} {reading reading' : Reading}

theorem childPlace (twin : o.Twin r o') (readings : Reading.Twin r o reading reading') (slot : Slot) :
    (o.childPlace reading slot).Twin r (o'.childPlace reading' slot) where
  parent := by simp only [Opening.childPlace, twin.id]
  slot := rfl
  scope := by simp only [Opening.childPlace, Opening.childScope, twin.kind, twin.inner, twin.place.scope]
  role := by
    have computed : o'.isComputed = o.isComputed := twin.agree.computed
    simp only [Opening.childPlace, twin.kind, computed]
  declarator := by
    simp only [Opening.childPlace, twin.kind]
    split
    · next declares => exact readings.name (by rw [declares.1]; decide)
    · exact .empty

/-- A function is bound to the names that its twin is bound to. -/
theorem bindings (twin : o.Twin r o') (readings : Reading.Twin r o reading reading')
    (defining : .id ∈ o.kind.definingSlots) {own declarator : Option Binding}
    (mine : Binding.ofContent (reading.content .id) = .ok own)
    (theirs : Binding.ofContent o.place.declarator = .ok declarator) :
    Binding.ofContent (reading'.content .id) = .ok (own.map (·.rename r)) ∧
      Binding.ofContent o'.place.declarator = .ok (declarator.map (·.rename r)) :=
  ⟨Binding.ofContent_twin (readings.name defining) mine,
    Binding.ofContent_twin twin.place.declarator theirs⟩

theorem form (twin : o.Twin r o') (readings : Reading.Twin r o reading reading') {f : Form}
    (formed : o.form reading = .ok f) :
    ∃ f', o'.form reading' = .ok f' ∧ f.Twin r o.place.slot f' := by
  have agree := twin.agree
  obtain ⟨same, functions⟩ := o.form_eq_ok formed
  have operator : o.kind ∈ Kind.operating → (o'.fields.lookup "operator").getD (.text "") =
      (o.fields.lookup "operator").getD (.text "") := agree.operator
  have computed : o'.isComputed = o.isComputed := agree.computed
  have plain : ∀ form : Form, (∀ expression own declarator, form ≠ .function expression own declarator) →
      (∀ field role, form ≠ .identifier field role) → form.Twin r o.place.slot form :=
    fun form notFunction notIdentifier => .same notFunction notIdentifier
  cases kind : o.kind
  case functionDeclaration | functionExpression =>
    cases f with
    | function expression own declarator =>
      obtain ⟨mine, theirs⟩ := functions expression own declarator rfl
      obtain ⟨mine', theirs'⟩ := twin.bindings readings (by rw [kind]; decide) mine theirs
      refine ⟨_, ?_, .function expression own declarator⟩
      cases expression <;> rw [kind] at same <;> cases same
      simp only [Opening.form, twin.kind, kind, mine', theirs']
      rfl
    | _ =>
      rw [kind] at same
      cases same
  case identifier =>
    simp only [Opening.form, twin.kind, kind, twin.place.role] at formed ⊢
    cases formed
    exact ⟨_, rfl, agree.name kind⟩
  case literal =>
    simp only [Opening.form, twin.kind, kind] at formed ⊢
    cases formed
    exact ⟨_, rfl, agree.literal kind⟩
  case assignmentExpression | unaryExpression | binaryExpression | logicalExpression |
      updateExpression =>
    simp only [Opening.form, twin.kind, kind] at formed ⊢
    rw [operator (by rw [kind]; decide)]
    cases formed
    exact ⟨_, rfl, plain _ (by simp) (by simp)⟩
  all_goals
    simp only [Opening.form, twin.kind, kind, computed] at formed ⊢
    cases formed
    exact ⟨_, rfl, plain _ (by simp) (by simp)⟩

theorem close (twin : o.Twin r o') (readings : Reading.Twin r o reading reading') {n : Node}
    (closed : o.close reading = .ok n) : ∃ n', o'.close reading' = .ok n' ∧ n.Twin r n' := by
  obtain ⟨f, formed, rfl⟩ := o.close_eq_ok closed
  obtain ⟨f', formed', form⟩ := twin.form readings formed
  have here := (Location.ofJson_succeeds _).mpr twin.located
  have there := (Location.ofJson_succeeds _).mpr (twin.agree.located twin.located)
  refine ⟨_, by rw [Opening.close, formed']; rfl, .mk ?_ (readings.children.imp fun _ _ c => c.1) ?_⟩
  · exact ⟨twin.id, form, twin.place.parent, twin.place.slot, twin.place.scope, twin.inner,
      readings.lists, here, there⟩
  · intro c child field role named
    have suits : o.Suits c := ((List.forall₂_and_left _ _).mp
      (readings.children.imp fun _ _ c => And.symm c)).1 c child
    constructor
    · intro slot label
      have reference := suits .callee slot field role named
      rw [label, Kind.role_callee] at reference
      cases reference
    · rintro slot rfl
      have property := suits .property slot field role named
      rw [property]
      exact Kind.role_property (o.form_member formed).1 (o.form_member formed).2

end Opening.Twin

/-- However both are placed, the second reads a twin of what the first reads in this slot. -/
def ReadsTwin (r : Renaming) (slot : Option Slot) (role : Role)
    (read read' : Place → ReadM (Content Node)) : Prop :=
  ∀ place place' first content last, place.Twin r place' → place.slot = slot → place.role = role →
    read place first = .ok (content, last) →
    ∃ content', read' place' first = .ok (content', last) ∧ content.Rel (Node.Twin r) content'

theorem openNode_twin {place place' : Place} (places : place.Twin r place') {kind : Kind}
    {fields fields' : List (String × Json)}
    (agree : Json.Agree r place.slot place.role kind (.object fields) (.object fields'))
    {first opened : Counter} {o : Opening} (ran : openNode place kind fields first = .ok (o, opened)) :
    ∃ o', openNode place' kind fields' first = .ok (o', opened) ∧ o.Twin r o' := by
  obtain ⟨located, named⟩ := (openNode_succeeds place kind fields first).mp ⟨_, ran⟩
  have named' : kind = .identifier → place'.role = .definition →
      (Json.object fields').PlainName := by
    intro identifier defines
    rw [places.role] at defines
    obtain ⟨name, known⟩ := (Name.ofField_succeeds _).mpr (named identifier defines)
    obtain ⟨field', same, renamed⟩ := (agree.name identifier).of_identifier
    cases same
    rw [defines] at renamed
    refine (Name.ofField_succeeds _).mp ⟨r name, ?_⟩
    rw [renamed (by decide), known]
    rfl
  obtain ⟨⟨o', opened'⟩, ran'⟩ :=
    (openNode_succeeds place' kind fields' first).mpr ⟨agree.located located, named'⟩
  obtain ⟨id, rfl, rfl, rfl, counter, inner⟩ := openNode_eq_ok ran
  obtain ⟨id', kind', rfl, rfl, counter', inner'⟩ := openNode_eq_ok ran'
  refine ⟨o', by rw [ran', counter, counter'], ?_⟩
  refine ⟨id'.trans id.symm, kind', ?_, places, agree, located⟩
  rw [inner, inner', places.scope]

theorem readSlots_twin {o o' : Opening} (twin : o.Twin r o')
    {child child' : Slot → Place → ReadM (Content Node)}
    (settles : ∀ slot, Yields Settled (child slot)) {slots : List Slot}
    (each : ∀ slot ∈ slots,
      ReadsTwin r (some slot) (o.kind.role o.raw.isComputed slot) (child slot) (child' slot))
    {reading reading' result : Reading} (readings : Reading.Twin r o reading reading')
    {first last : Counter} (ran : o.readSlots child slots reading first = .ok (result, last)) :
    ∃ result', o'.readSlots child' slots reading' first = .ok (result', last) ∧
      Reading.Twin r o result result' := by
  induction slots generalizing reading reading' first with
  | nil =>
    cases ReadM.pure_eq_ok.mp ran
    exact ⟨reading', rfl, readings⟩
  | cons slot slots ih =>
    rw [Opening.readSlots_cons] at ran
    obtain ⟨content, middle, held, ran⟩ := ReadM.bind_eq_ok.mp ran
    obtain ⟨content', held', same⟩ := each slot List.mem_cons_self _ _ _ _ _
      (twin.childPlace readings slot) rfl rfl held
    have suits : ∀ c ∈ content.toList, o.Suits c := by
      intro c member stood stands field role named
      have fits := (settles slot _ _ _ _ held c member).1
      cases fits.slot.symm.trans stands
      exact fits.role field role named
    obtain ⟨result', ran', readings'⟩ := ih
      (fun slot listed => each slot (List.mem_cons_of_mem _ listed))
      (readings.add slot (same.and suits)) ran
    refine ⟨result', ?_, readings'⟩
    rw [Opening.readSlots_cons]
    exact ReadM.bind_eq_ok.mpr ⟨content', middle, held', ran'⟩

theorem readNode_twin {place place' : Place} (places : place.Twin r place') {kind : Kind}
    {fields fields' : List (String × Json)}
    (agree : Json.Agree r place.slot place.role kind (.object fields) (.object fields'))
    {child child' : Slot → Place → ReadM (Content Node)}
    (settles : ∀ slot, Yields Settled (child slot))
    (each : ∀ slot ∈ kind.slots, ReadsTwin r (some slot)
      (kind.role (Json.object fields).isComputed slot) (child slot) (child' slot))
    {first last : Counter} {n : Node} (ran : readNode place kind fields child first = .ok (n, last)) :
    ∃ n', readNode place' kind fields' child' first = .ok (n', last) ∧ n.Twin r n' := by
  obtain ⟨o, opened, began, ran⟩ := ReadM.bind_eq_ok.mp ran
  obtain ⟨result, _, read, ran⟩ := ReadM.bind_eq_ok.mp ran
  obtain ⟨_, closed, same⟩ := ReadM.ofFault_eq_ok.mp ran
  cases same
  obtain ⟨o', began', twin⟩ := openNode_twin places agree began
  obtain ⟨_, rfl, rfl, rfl, _⟩ := openNode_eq_ok began
  obtain ⟨result', read', readings⟩ := readSlots_twin twin settles each ⟨.nil, rfl⟩ read
  obtain ⟨n', closed', nodes⟩ := twin.close readings closed
  refine ⟨n', ?_, nodes⟩
  refine ReadM.bind_eq_ok.mpr ⟨o', opened, began', ?_⟩
  refine ReadM.bind_eq_ok.mpr ⟨result', _, read', ?_⟩
  exact ReadM.ofFault_eq_ok.mpr ⟨n', closed', rfl⟩

theorem readField_eq (key : String) (fields : List (String × Json)) :
    readField key fields = readContent ((fields.lookup key).getD .null) false := by
  induction fields with
  | nil => rfl
  | cons field fields ih =>
    obtain ⟨other, value⟩ := field
    funext place
    rw [readField, List.lookup_cons]
    by_cases here : other = key
    · simp [here]
    · rw [if_neg here, beq_false_of_ne (Ne.symm here), ih]

/-- Objects that are twins are read as twins, given that for their slots. -/
theorem readObject_twin {fields fields' : List (String × Json)} {kind : Kind} {slot : Option Slot}
    {role : Role} (agree : Json.Agree r slot role kind (.object fields) (.object fields'))
    {child child' : Slot → Place → ReadM (Content Node)}
    (settles : ∀ slot, Yields Settled (child slot))
    (each : ∀ slot ∈ kind.slots, ReadsTwin r (some slot)
      (kind.role (Json.object fields).isComputed slot) (child slot) (child' slot))
    {place place' : Place} (places : place.Twin r place') (stands : place.slot = slot)
    (acts : place.role = role) {first last : Counter} {n : Node}
    (ran : readObject place fields child first = .ok (n, last)) :
    ∃ n', readObject place' fields' child' first = .ok (n', last) ∧ n.Twin r n' := by
  subst stands acts
  by_cases below : kind = .statement .program
  · have unknown : ¬ (Json.object fields).Known := by
      rintro ⟨other, is, known⟩
      exact known ((is.unique agree.left).trans below)
    exact absurd ⟨_, ran⟩ (readObject_of_unknown unknown place child first)
  · rw [readObject_of_known agree.left below] at ran
    rw [readObject_of_known agree.right below]
    exact readNode_twin places agree settles each ran

theorem readItems_twin {slot : Option Slot} {role : Role} {item item' : Json} {items items' : List Json}
    (here : ReadsTwin r slot role (readContent item true) (readContent item' true))
    (rest : ReadsTwin r slot role (readContent (.list items) false) (readContent (.list items') false)) :
    ReadsTwin r slot role (readContent (.list (item :: items)) false)
      (readContent (.list (item' :: items')) false) := by
  intro place place' first content last places stands acts ran
  rw [readContent, readItems] at ran
  obtain ⟨nodes, _, read, ran⟩ := ReadM.bind_eq_ok.mp ran
  cases ReadM.pure_eq_ok.mp ran
  obtain ⟨content, middle, head, read⟩ := ReadM.bind_eq_ok.mp read
  obtain ⟨more, _, tail, read⟩ := ReadM.bind_eq_ok.mp read
  cases ReadM.pure_eq_ok.mp read
  obtain ⟨content', head', same⟩ := here place place' first content middle places stands acts head
  obtain ⟨others, tail', related⟩ := rest place place' middle (.many more) _ places stands acts
    (by rw [readContent]; exact ReadM.bind_eq_ok.mpr ⟨more, _, tail, rfl⟩)
  cases related with
  | @many _ more' related =>
    rw [readContent] at tail'
    obtain ⟨more'', _, tail', ran⟩ := ReadM.bind_eq_ok.mp tail'
    cases ReadM.pure_eq_ok.mp ran
    refine ⟨.many (content'.toList ++ more'), ?_, .many (List.rel_append same.toList related)⟩
    rw [readContent, readItems]
    refine ReadM.bind_eq_ok.mpr ⟨content'.toList ++ more', _, ?_, rfl⟩
    refine ReadM.bind_eq_ok.mpr ⟨content', middle, head', ?_⟩
    exact ReadM.bind_eq_ok.mpr ⟨more', _, tail', rfl⟩

theorem readContent_null_cons (items : List Json) :
    readContent (.list (.null :: items)) false = readContent (.list items) false := by
  funext place
  simp [readContent, readItems, Content.toList]

/-- Twin values are read as twins. -/
theorem readContent_twin {slot : Option Slot} {role : Role} {raw raw' : Json}
    (twin : Json.Twin r slot role raw raw') (nested : Bool) :
    ReadsTwin r slot role (readContent raw nested) (readContent raw' nested) := by
  induction twin generalizing nested with
  | null =>
    intro place place' first content last places _ _ ran
    cases ran
    exact ⟨.empty, rfl, .empty⟩
  | nil =>
    intro place place' first content last places _ _ ran
    cases nested with
    | true => cases ran
    | false =>
      cases ran
      exact ⟨.many [], rfl, .many .nil⟩
  | cons _ _ here rest =>
    cases nested with
    | true =>
      intro place place' first content last places _ _ ran
      cases ran
    | false => exact readItems_twin (here true) (rest false)
  | nullLeft _ rest | nullRight _ rest =>
    cases nested with
    | true =>
      intro place place' first content last places _ _ ran
      cases ran
    | false =>
      rw [readContent_null_cons]
      exact rest false
  | @node slot role kind fields fields' agree _ each =>
    intro place place' first content last places stands acts ran
    rw [readContent] at ran
    obtain ⟨n, _, read, ran⟩ := ReadM.bind_eq_ok.mp ran
    cases ReadM.pure_eq_ok.mp ran
    have slots : ∀ inner ∈ kind.slots, ReadsTwin r (some inner)
        (kind.role (Json.object fields).isComputed inner) (readField inner.text fields)
        (readField inner.text fields') := by
      intro inner held
      rw [readField_eq, readField_eq]
      exact each inner held false
    obtain ⟨n', read', same⟩ := readObject_twin agree
      (fun inner => readField_yields settled_compositional inner.text fields) slots places stands acts
      read
    refine ⟨.one n', ?_, .one same⟩
    rw [readContent]
    exact ReadM.bind_eq_ok.mpr ⟨n', _, read', rfl⟩

namespace Scopes.Twin

variable {left right : Scopes}

theorem push (twin : left.Twin r right) {scope scope' : Scope} (same : scope.Twin r scope') :
    Scopes.Twin r (left.push scope) (right.push scope') := by
  intro s
  rw [Array.getElem?_push, Array.getElem?_push, twin.size]
  split
  · exact .some same
  · exact twin s

theorem modify (twin : left.Twin r right) (s : ScopeId) {change change' : Scope → Scope}
    (kept : ∀ scope scope' : Scope, scope.Twin r scope' → (change scope).Twin r (change' scope')) :
    Scopes.Twin r (left.modify s change) (right.modify s change') := by
  intro other
  rw [Array.getElem?_modify, Array.getElem?_modify]
  split
  · rcases twin.found other with ⟨here, there⟩ | ⟨scope, scope', here, there, same⟩
    · rw [here, there]
      exact .none
    · rw [here, there]
      exact .some (kept scope scope' same)
  · exact twin other

theorem foldl (twin : left.Twin r right) {α : Type} {R : α → α → Prop}
    {step step' : Scopes → α → Scopes}
    (kept : ∀ a a', R a a' → ∀ left right : Scopes, left.Twin r right →
      (step left a).Twin r (step' right a'))
    {as as' : List α} (each : List.Forall₂ R as as') :
    (as.foldl step left).Twin r (as'.foldl step' right) := by
  induction each generalizing left right with
  | nil => exact twin
  | cons here _ ih => exact ih (kept _ _ here _ _ twin)

end Scopes.Twin

section

variable {left right : Scopes} {n n' : Node}

theorem openScope_twin (bound : Int) (twin : n.Twin r n') (scopes : left.Twin r right) :
    (Program.openScope bound left n).Twin r (Program.openScope bound right n') := by
  have form := twin.form
  unfold Program.openScope
  rw [twin.head.scope, scopes.chain]
  generalize n.form = f at form
  generalize n'.form = f' at form
  cases form with
  | function expression own declarator => exact scopes.push ⟨rfl, rfl, rfl, rfl⟩
  | same plain _ =>
    split
    · exact absurd rfl (plain _ _ _)
    · exact scopes
  | _ => exact scopes

theorem enterName_twin (twin : n.Twin r n') (scopes : left.Twin r right) :
    (Program.enterName left n).Twin r (Program.enterName right n') := by
  have form := twin.form
  have same : n'.id = n.id := twin.head.id
  unfold Program.enterName
  rw [twin.head.scope, same]
  generalize n.form = f at form
  generalize n'.form = f' at form
  cases form with
  | @identifier field field' role named shown =>
    cases role with
    | definition =>
      dsimp only
      rw [named (by decide)]
      cases Name.ofField field with
      | error fault => exact scopes
      | ok name =>
        apply scopes.modify
        intro scope scope' alike
        refine ⟨alike.outer, alike.bound, ?_, alike.functions⟩
        simp only [Scope.declare, alike.declared, Table.put_rename]
    | _ => exact scopes
  | same _ other =>
    split
    · exact absurd rfl (other _ _)
    · exact scopes
  | _ => exact scopes

theorem enterFunction_twin (twin : n.Twin r n') (scopes : left.Twin r right) :
    (Program.enterFunction left n).Twin r (Program.enterFunction right n') := by
  have form := twin.form
  have same : n'.id = n.id := twin.head.id
  unfold Program.enterFunction
  rw [same]
  generalize n.form = f at form
  generalize n'.form = f' at form
  cases form with
  | function expression own declarator =>
    apply scopes.foldl (R := fun b b' => b' = b.rename r)
    · rintro b _ rfl left right scopes
      apply scopes.modify
      intro scope scope' alike
      refine ⟨alike.outer, alike.bound, alike.declared, ?_⟩
      simp only [Scope.bind, alike.functions, Binding.rename, Table.put_rename]
    · cases own <;> cases declarator <;> simp
  | same plain _ =>
    split
    · exact absurd rfl (plain _ _ _)
    · exact scopes
  | _ => exact scopes

/-- Twin trees have twin scopes. -/
theorem scopesOf_twin (bound : Int) (twin : n.Twin r n') :
    (Program.scopesOf bound n).Twin r (Program.scopesOf bound n') := by
  have none : Scopes.Twin r #[] #[] := fun s => by simp
  have program : Scopes.Twin r #[⟨"Program", [], bound, [], []⟩] #[⟨"Program", [], bound, [], []⟩] :=
    none.push ⟨rfl, rfl, rfl, rfl⟩
  have opened := program.foldl (R := Node.Twin r)
    (fun n n' same _ _ => openScope_twin bound same) twin.preorder
  have named := opened.foldl (R := Node.Twin r) (fun n n' same _ _ => enterName_twin same) twin.preorder
  exact named.foldl (R := Node.Twin r) (fun n n' same _ _ => enterFunction_twin same) twin.postorder

end

theorem readProgram_of_program {fields : List (String × Json)}
    (is : (Json.object fields).IsOf (.statement .program)) :
    readProgram (.object fields) = readNode .root (.statement .program) fields
      fun slot inner => readField slot.text fields inner := by
  have type : (Json.object fields).get? "type" = some (.text "Program") := is
  unfold readProgram
  rw [type]
  rfl

theorem ofJson_twin {settings : Settings} {tree tree' : Json}
    (twin : Json.Twin r none .reference tree tree') {p : Program}
    (accepted : Program.ofJson settings tree = .ok p) :
    ∃ p', Program.ofJson settings tree' = .ok p' ∧ p.Twin r p' := by
  obtain ⟨root, read, rfl⟩ := Program.ofJson_eq_ok accepted
  obtain ⟨last, read⟩ := Node.ofJson_eq_ok read
  obtain ⟨is, _⟩ := (readProgram_succeeds tree _).mp ⟨_, read⟩
  cases twin with
  | @node _ _ kind fields fields' agree each =>
    obtain rfl : kind = .statement .program := agree.left.unique is
    have root : Place.root.Twin r .root := ⟨rfl, rfl, rfl, rfl, .empty⟩
    have slots : ∀ inner ∈ (Kind.statement .program).slots, ReadsTwin r (some inner)
        ((Kind.statement .program).role (Json.object fields).isComputed inner)
        (readField inner.text fields) (readField inner.text fields') := by
      intro inner held
      rw [readField_eq, readField_eq]
      exact readContent_twin (each inner held) false
    rw [readProgram_of_program agree.left] at read
    obtain ⟨root', read', same⟩ := readNode_twin root agree
      (fun inner => readField_yields settled_compositional inner.text fields) slots read
    rw [← readProgram_of_program agree.right] at read'
    have accepted' : Program.ofJson settings (.object fields') = .ok (.ofTree settings root') := by
      change ((readProgram (.object fields') ⟨0, 1⟩).map Prod.fst).map _ = _
      rw [read']
      rfl
    refine ⟨_, accepted', ⟨rfl, scopesOf_twin _ same⟩, same, ?_⟩
    exact same.preorder.length_eq.symm
  | _ => cases is

end ScriptTypes
