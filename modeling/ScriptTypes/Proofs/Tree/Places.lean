import ScriptTypes.Proofs.Tree.Numbering

/-! What a node takes over from its place is what its parent has there: an identifier the role of
its slot, and a function that is the value of a declarator the declarator's name. -/

namespace ScriptTypes

/-- The node stands in this slot, with this role if it is an identifier and with the name of this
declarator if it is a function. -/
structure Node.Fits (slot : Option Slot) (role : Role) (declarator : Content Node) (n : Node) :
    Prop where
  slot : n.head.slot = slot
  role : ∀ field actual, n.form = .identifier field actual → actual = role
  declarator : ∀ expression own bound, n.form = .function expression own bound →
    Binding.ofContent declarator = .ok bound

theorem Node.kind_of_form {n : Node} {form : Form} (is : n.form = form) : n.kind = form.kind := by
  rw [← is]
  rfl

theorem Node.identifier_of_kind {n : Node} (kind : n.kind = .identifier) :
    ∃ field role, n.form = .identifier field role := by
  change n.form.kind = _ at kind
  cases form : n.form with
  | identifier field role => exact ⟨field, role, rfl⟩
  | function expression own declarator => rw [form] at kind; cases expression <;> cases kind
  | _ => rw [form] at kind; cases kind

theorem Node.function_of_kind {n : Node} (kind : n.kind.isFunction = true) :
    ∃ expression own declarator, n.form = .function expression own declarator := by
  change n.form.kind.isFunction = true at kind
  cases form : n.form with
  | function expression own declarator => exact ⟨expression, own, declarator, rfl⟩
  | _ => rw [form] at kind; cases kind

/-- The declarator's name, for its value; nothing for what stands elsewhere. -/
def declaratorFor (kind : Kind) (slot : Slot) (id : Content Node) : Content Node :=
  if kind = .statement .variableDeclarator ∧ slot = .init then id else .empty

def Kind.definingSlots : Kind → List Slot
  | functionDeclaration | functionExpression => [.id, .params]
  | statement .variableDeclarator => [.id]
  | statement .catchClause => [.param]
  | _ => []

theorem Kind.role_eq_definition_iff (kind : Kind) (computed : Bool) (slot : Slot) :
    kind.role computed slot = .definition ↔ slot ∈ kind.definingSlots := by
  constructor
  · intro defines
    unfold role at defines
    split at defines <;> cases computed <;> simp_all [definingSlots]
  · intro member
    unfold definingSlots at member
    split at member <;> simp only [List.mem_cons, List.not_mem_nil, or_false] at member
    · rcases member with rfl | rfl <;> rfl
    · rcases member with rfl | rfl <;> rfl
    · rw [member]; rfl
    · rw [member]; rfl

/-- Every child fits the slot of the node that it stands in. -/
def Node.Linked (n : Node) : Prop :=
  ∀ c ∈ n.children, ∃ slot, c.Fits (some slot) (n.kind.role n.head.isComputed slot)
    (declaratorFor n.kind slot (n.content .id))

theorem Node.Linked.fits {n c : Node} {slot : Slot} (linked : n.Linked)
    (held : n.content slot = .one c) :
    c.Fits (some slot) (n.kind.role n.head.isComputed slot)
      (declaratorFor n.kind slot (n.content .id)) := by
  obtain ⟨child, stands⟩ := child_of_one held
  obtain ⟨actual, fits⟩ := linked c child
  cases fits.slot.symm.trans stands
  exact fits

namespace Reading

theorem parts_of_absent {slot : Slot} {nodes : List Node}
    (absent : ∀ n ∈ nodes, n.head.slot ≠ some slot) :
    (nodes.map fun n => (n.head.slot, n)).filterMap
        (fun part => if part.1 = some slot then some part.2 else none) = [] ∧
      (nodes.map fun n => (n.head.slot, n)).lookup (some slot) = none := by
  constructor
  · rw [List.filterMap_eq_nil_iff]
    intro part member
    obtain ⟨n, inside, rfl⟩ := List.mem_map.mp member
    simp [absent n inside]
  · rw [List.lookup_eq_none_iff]
    intro part member
    obtain ⟨n, inside, rfl⟩ := List.mem_map.mp member
    simpa using (absent n inside).symm

/-- What is read for one slot does not change what the others hold. -/
theorem content_add_of_ne (r : Reading) {slot other : Slot} (content : Content Node)
    (apart : other ≠ slot) (stands : ∀ n ∈ content.toList, n.head.slot = some slot) :
    (r.add slot content).content other = r.content other := by
  have listed : other ∈ (r.add slot content).lists ↔ other ∈ r.lists := by
    cases content <;> simp [add, apart]
  have absent : ∀ n ∈ content.toList, n.head.slot ≠ some other := by
    intro n member
    rw [stands n member]
    exact fun same => apart (Option.some.inj same).symm
  obtain ⟨filtered, looked⟩ := parts_of_absent absent
  have children : (r.add slot content).children = r.children ++ content.toList := rfl
  unfold Reading.content Content.ofParts
  rw [children, List.map_append]
  by_cases many : other ∈ r.lists
  · rw [if_pos (listed.mpr many), if_pos many, List.filterMap_append, filtered, List.append_nil]
  · rw [if_neg (mt listed.mp many), if_neg many, List.lookup_append, looked, Option.or_none]

/-- Nothing has been read for these slots yet. -/
def Awaits (r : Reading) (slots : List Slot) : Prop :=
  ∀ slot ∈ slots, slot ∉ r.lists ∧ ∀ n ∈ r.children, n.head.slot ≠ some slot

theorem awaits_empty (slots : List Slot) : Awaits {} slots :=
  fun _ _ => ⟨List.not_mem_nil, fun _ none => (List.not_mem_nil none).elim⟩

theorem Awaits.add {r : Reading} {slot : Slot} {slots : List Slot} {content : Content Node}
    (awaits : r.Awaits (slot :: slots)) (distinct : (slot :: slots).Nodup)
    (stands : ∀ n ∈ content.toList, n.head.slot = some slot) :
    (r.add slot content).Awaits slots := by
  intro other later
  obtain ⟨unlisted, absent⟩ := awaits other (List.mem_cons_of_mem _ later)
  have apart : other ≠ slot := fun same => (List.nodup_cons.mp distinct).1 (same ▸ later)
  refine ⟨?_, ?_⟩
  · cases content <;> simp [Reading.add, unlisted, apart]
  · intro n member
    rcases List.mem_append.mp member with old | new
    · exact absent n old
    · rw [stands n new]
      exact fun same => apart (Option.some.inj same).symm

theorem content_add_self {r : Reading} {slot : Slot} {slots : List Slot} {content : Content Node}
    (awaits : r.Awaits (slot :: slots)) (stands : ∀ n ∈ content.toList, n.head.slot = some slot) :
    (r.add slot content).content slot = content := by
  obtain ⟨unlisted, absent⟩ := awaits slot List.mem_cons_self
  have before := parts_of_absent absent
  unfold Reading.content Content.ofParts
  cases content with
  | empty => simp [add, unlisted, Content.toList, before.2]
  | one n =>
    have here : n.head.slot = some slot := stands n (List.mem_singleton.mpr rfl)
    simp [add, unlisted, Content.toList, List.lookup_append, before.2, here]
  | many nodes =>
    have kept : (nodes.map fun n => (n.head.slot, n)).filterMap
        (fun part => if part.1 = some slot then some part.2 else none) = nodes := by
      rw [List.filterMap_map]
      refine (List.filterMap_congr ?_).trans List.filterMap_some
      intro n member
      simp [stands n member]
    simp [add, Content.toList, before.1, kept]

/-- Only a value refers to the name of its declarator, so what else is read does not change it. -/
theorem declaratorFor_add (r : Reading) (kind : Kind) {slot other : Slot} (content : Content Node)
    (apart : other = .init → slot ≠ .id) (stands : ∀ n ∈ content.toList, n.head.slot = some slot) :
    declaratorFor kind other ((r.add slot content).content .id) =
      declaratorFor kind other (r.content .id) := by
  unfold declaratorFor
  split
  · next value => exact r.content_add_of_ne content (apart value.2).symm stands
  · rfl

end Reading

namespace Opening

variable {o : Opening} {r : Reading} {n : Node}

/-- A node that is closed fits the place it was read for. -/
theorem fits_of_close (closed : o.close r = .ok n) :
    n.Fits o.place.slot o.place.role o.place.declarator := by
  obtain ⟨f, formed, rfl⟩ := close_eq_ok closed
  obtain ⟨kind, bound⟩ := form_eq_ok formed
  refine ⟨rfl, ?_, ?_⟩
  · intro field actual form
    change f = _ at form
    subst form
    have identifier : o.kind = .identifier := kind.symm
    simp only [Opening.form, identifier] at formed
    cases formed
    rfl
  · intro expression own declarator form
    change f = _ at form
    exact (bound expression own declarator form).2

def Links (o : Opening) (r : Reading) : Prop :=
  ∀ c ∈ r.children, ∃ slot, c.Fits (some slot) (o.kind.role o.isComputed slot)
    (declaratorFor o.kind slot (r.content .id))

end Opening

theorem Kind.slots_nodup (kind : Kind) : kind.slots.Nodup := by
  cases kind with
  | statement kind => cases kind <;> decide
  | _ => decide

theorem Kind.slots_ordered (kind : Kind) :
    kind.slots.Pairwise fun earlier later => earlier = .init → later ≠ .id := by
  cases kind with
  | statement kind => cases kind <;> decide
  | _ => decide

abbrev Settled (place : Place) (_ : Counter) (nodes : List Node) (_ : Counter) : Prop :=
  ∀ n ∈ nodes, n.Fits place.slot place.role place.declarator ∧ ∀ m ∈ n.preorder, m.Linked

/-- How far the children fit their slots while these slots are still to be read. -/
structure Opening.Linking (o : Opening) (slots : List Slot) (r : Reading) : Prop where
  ordered : slots.Pairwise fun earlier later => earlier = .init → later ≠ .id
  links : o.Links r
  linked : ∀ c ∈ r.children, ∀ m ∈ c.preorder, m.Linked
  pending : .id ∈ slots → ∀ c ∈ r.children, c.head.slot ≠ some .init

theorem Opening.Linking.add {o : Opening} {slot : Slot} {slots : List Slot} {r : Reading}
    {content : Content Node} (linking : o.Linking (slot :: slots) r)
    (fits : ∀ n ∈ content.toList, n.Fits (some slot) (o.kind.role o.isComputed slot)
      (declaratorFor o.kind slot (r.content .id)) ∧ ∀ m ∈ n.preorder, m.Linked) :
    o.Linking slots (r.add slot content) := by
  obtain ⟨first, rest⟩ := List.pairwise_cons.mp linking.ordered
  have stands : ∀ n ∈ content.toList, n.head.slot = some slot :=
    fun n member => (fits n member).1.slot
  refine ⟨rest, ?_, ?_, ?_⟩
  · intro c member
    rcases List.mem_append.mp member with old | new
    · obtain ⟨other, fit⟩ := linking.links c old
      refine ⟨other, fit.slot, fit.role, ?_⟩
      have apart : other = .init → slot ≠ .id := by
        rintro rfl rfl
        exact linking.pending List.mem_cons_self c old fit.slot
      rw [r.declaratorFor_add o.kind content apart stands]
      exact fit.declarator
    · obtain ⟨fit, _⟩ := fits c new
      refine ⟨slot, fit.slot, fit.role, ?_⟩
      have apart : slot = .init → slot ≠ .id := by
        rintro rfl
        decide
      rw [r.declaratorFor_add o.kind content apart stands]
      exact fit.declarator
  · intro c member
    rcases List.mem_append.mp member with old | new
    · exact linking.linked c old
    · exact (fits c new).2
  · intro later c member
    rcases List.mem_append.mp member with old | new
    · exact linking.pending (List.mem_cons_of_mem _ later) c old
    · rw [stands c new]
      intro value
      exact first _ later (Option.some.inj value) rfl

theorem Opening.linking_begun (o : Opening) : o.Linking o.kind.slots {} where
  ordered := o.kind.slots_ordered
  links c none := by cases none
  linked c none := by cases none
  pending _ c none := by cases none

theorem readNode_settled {place : Place} {kind : Kind} {fields : List (String × Json)}
    {child : Slot → Place → ReadM (Content Node)} (reads : ∀ slot, Yields Settled (child slot))
    {first last : Counter} {n : Node}
    (ran : readNode place kind fields child first = .ok (n, last)) :
    Settled place first [n] last := by
  obtain ⟨o, after, numbered, ran⟩ := ReadM.bind_eq_ok.mp ran
  obtain ⟨r, _, read, ran⟩ := ReadM.bind_eq_ok.mp ran
  obtain ⟨_, closed, same⟩ := ReadM.ofFault_eq_ok.mp ran
  cases same
  obtain ⟨_, rfl, rfl, _⟩ := openNode_eq_ok numbered
  obtain ⟨_, links, below, _⟩ := o.readSlots_induction
    (motive := fun slots r _ => o.Linking slots r)
    (fun slot slots r middle content next linking held =>
      linking.add (reads slot _ _ _ _ held)) o.linking_begun read
  have fits := o.fits_of_close closed
  intro m member
  rw [List.mem_singleton.mp member]
  refine ⟨fits, ?_⟩
  obtain ⟨f, formed, rfl⟩ := o.close_eq_ok closed
  intro d inside
  rcases Node.mem_preorder.mp inside with rfl | inside
  · intro c child
    obtain ⟨slot, fit⟩ := links c child
    have sameKind : f.kind = o.kind := (o.form_eq_ok formed).1
    refine ⟨slot, ?_⟩
    change c.Fits (some slot) (f.kind.role o.isComputed slot)
      (declaratorFor f.kind slot (r.content .id))
    rw [sameKind]
    exact fit
  · obtain ⟨c, child, inside⟩ := Node.mem_descendants.mp inside
    exact below c child d inside

theorem settled_compositional : Compositional Settled where
  nil _ _ n none := by cases none
  append _ _ _ _ _ _ left right n member := by
    rcases List.mem_append.mp member with member | member
    · exact left n member
    · exact right n member
  node _ _ _ _ _ _ _ reads ran := readNode_settled reads ran

theorem Node.linked_of_ofJson {tree : Json} {root : Node} (accepted : ofJson tree = .ok root) :
    ∀ n ∈ root.preorder, n.Linked := by
  obtain ⟨last, read⟩ := ofJson_eq_ok accepted
  obtain ⟨fields, ran⟩ := readProgram_eq_ok read
  have settled := readNode_settled
    (fun slot => readField_yields settled_compositional slot.text fields) ran
  exact (settled _ (List.mem_singleton.mpr rfl)).2

end ScriptTypes
