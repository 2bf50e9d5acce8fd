import ScriptTypes.Proofs.Tree.Grammar

/-! The children of a node that was read know their parent and stand in its slots, each of which
holds all that stands in it. They are kept in the order in which the slots were read, so that the
name of a declarator comes before its value. -/

namespace ScriptTypes

/-- How a node keeps its children. -/
structure Node.Filed (n : Node) : Prop where
  parent : ∀ c ∈ n.children, c.head.parent = some n.id
  slots : ∀ c ∈ n.children, ∃ slot ∈ n.kind.slots, c.head.slot = some slot
  filed : ∀ c ∈ n.children, ∀ slot, c.head.slot = some slot → c ∈ (n.content slot).toList
  ordered : n.children.Pairwise fun c d => c.head.slot = some .init → d.head.slot ≠ some .id

def Node.Defined (n : Node) : Prop :=
  ∀ field, n.form = .identifier field .definition → ∃ name, Name.ofField field = .ok name

structure Opening.Files (o : Opening) (slots : List Slot) (r : Reading) : Prop where
  distinct : slots.Nodup
  inOrder : slots.Pairwise fun earlier later => earlier = .init → later ≠ .id
  known : slots ⊆ o.kind.slots
  awaits : r.Awaits slots
  parent : ∀ c ∈ r.children, c.head.parent = some o.id
  stands : ∀ c ∈ r.children, ∃ slot ∈ o.kind.slots, c.head.slot = some slot
  filed : ∀ c ∈ r.children, ∀ slot, c.head.slot = some slot → c ∈ (r.content slot).toList
  ordered : r.children.Pairwise fun c d => c.head.slot = some .init → d.head.slot ≠ some .id
  pending : .id ∈ slots → ∀ c ∈ r.children, c.head.slot ≠ some .init

namespace Opening

variable {o : Opening} {slot : Slot} {slots : List Slot} {r : Reading}

theorem files_begun (o : Opening) : o.Files o.kind.slots {} where
  distinct := o.kind.slots_nodup
  inOrder := o.kind.slots_ordered
  known := List.Subset.refl _
  awaits := Reading.awaits_empty _
  parent c none := by cases none
  stands c none := by cases none
  filed c none := by cases none
  ordered := .nil
  pending _ c none := by cases none

theorem Files.add {content : Content Node} (files : o.Files (slot :: slots) r)
    (parent : ∀ n ∈ content.toList, n.head.parent = some o.id)
    (placed : ∀ n ∈ content.toList, n.head.slot = some slot) :
    o.Files slots (r.add slot content) := by
  obtain ⟨first, rest⟩ := List.pairwise_cons.mp files.inOrder
  refine ⟨files.distinct.of_cons, rest, (List.cons_subset.mp files.known).2,
    files.awaits.add files.distinct placed, ?_, ?_, ?_, ?_, ?_⟩
  · intro c member
    rcases List.mem_append.mp member with old | new
    · exact files.parent c old
    · exact parent c new
  · intro c member
    rcases List.mem_append.mp member with old | new
    · exact files.stands c old
    · exact ⟨slot, (List.cons_subset.mp files.known).1, placed c new⟩
  · intro c member other stood
    rcases List.mem_append.mp member with old | new
    · have apart : other ≠ slot := by
        rintro rfl
        exact (files.awaits other List.mem_cons_self).2 c old stood
      rw [r.content_add_of_ne content apart placed]
      exact files.filed c old other stood
    · obtain rfl : slot = other := Option.some.inj ((placed c new).symm.trans stood)
      rw [Reading.content_add_self files.awaits placed]
      exact new
  · refine List.pairwise_append.mpr ⟨files.ordered, ?_, ?_⟩
    · refine List.pairwise_of_forall_mem_list ?_
      intro c left d right value name
      have same := Option.some.inj ((placed c left).symm.trans value)
      rw [placed d right, same] at name
      cases name
    · intro c old d new value name
      obtain rfl : slot = .id := Option.some.inj ((placed d new).symm.trans name)
      exact files.pending List.mem_cons_self c old value
  · intro later c member
    rcases List.mem_append.mp member with old | new
    · exact files.pending (List.mem_cons_of_mem _ later) c old
    · rw [placed c new]
      intro value
      exact first _ later (Option.some.inj value) rfl

end Opening

/-- What is read stands where its place says, and all below is kept in order. -/
abbrev Kept (place : Place) (_ : Counter) (nodes : List Node) (_ : Counter) : Prop :=
  ∀ n ∈ nodes, n.head.parent = place.parent ∧ n.head.slot = place.slot ∧
    ∀ m ∈ n.preorder, m.Filed ∧ m.Defined

theorem readNode_kept {place : Place} {kind : Kind} {fields : List (String × Json)}
    {child : Slot → Place → ReadM (Content Node)} (reads : ∀ slot, Yields Kept (child slot))
    {first last : Counter} {n : Node}
    (ran : readNode place kind fields child first = .ok (n, last)) : Kept place first [n] last := by
  obtain ⟨o, after, opened, ran⟩ := ReadM.bind_eq_ok.mp ran
  obtain ⟨r, _, read, ran⟩ := ReadM.bind_eq_ok.mp ran
  obtain ⟨_, closed, same⟩ := ReadM.ofFault_eq_ok.mp ran
  cases same
  have named := ((openNode_succeeds place kind fields first).mp ⟨_, opened⟩).2
  obtain ⟨_, rfl, rfl, rfl, _⟩ := openNode_eq_ok opened
  obtain ⟨files, below⟩ := o.readSlots_induction
    (motive := fun slots r _ => o.Files slots r ∧
      ∀ c ∈ r.children, ∀ m ∈ c.preorder, m.Filed ∧ m.Defined)
    (by
      rintro slot slots r middle content next ⟨files, below⟩ held
      have kept := reads slot _ _ _ _ held
      refine ⟨files.add (fun n member => (kept n member).1) fun n member => (kept n member).2.1, ?_⟩
      intro c member
      rcases List.mem_append.mp member with old | new
      · exact below c old
      · exact (kept c new).2.2)
    ⟨o.files_begun, fun c none => by cases none⟩ read
  obtain ⟨f, formed, rfl⟩ := o.close_eq_ok closed
  have sameKind : f.kind = o.kind := (o.form_eq_ok formed).1
  intro m member
  rw [List.mem_singleton.mp member]
  refine ⟨rfl, rfl, ?_⟩
  intro d inside
  rcases Node.mem_preorder.mp inside with rfl | inside
  · refine ⟨⟨files.parent, ?_, files.filed, files.ordered⟩, ?_⟩
    · intro c child
      change ∃ slot ∈ f.kind.slots, _
      rw [sameKind]
      exact files.stands c child
    · intro field form
      change f = _ at form
      subst form
      have identifier : o.kind = .identifier := sameKind.symm
      simp only [Opening.form, identifier] at formed
      obtain ⟨rfl, defines⟩ := Form.identifier.inj (Except.ok.inj formed)
      exact (Name.ofField_succeeds _).mpr (named identifier defines)
  · obtain ⟨c, child, inside⟩ := Node.mem_descendants.mp inside
    exact below c child d inside

theorem kept_compositional : Compositional Kept where
  nil _ _ n none := by cases none
  append _ _ _ _ _ _ left right n member := by
    rcases List.mem_append.mp member with member | member
    · exact left n member
    · exact right n member
  node _ _ _ _ _ _ _ reads ran := readNode_kept reads ran

namespace Node

theorem kept_of_ofJson {tree : Json} {root : Node} (accepted : ofJson tree = .ok root) :
    ∀ n ∈ root.preorder, n.Filed ∧ n.Defined := by
  obtain ⟨last, read⟩ := ofJson_eq_ok accepted
  obtain ⟨fields, ran⟩ := readProgram_eq_ok read
  have kept := readNode_kept (fun slot => readField_yields kept_compositional slot.text fields) ran
  exact (kept _ (List.mem_singleton.mpr rfl)).2.2

theorem Filed.eq_of_one {n c d : Node} {slot : Slot} (filed : n.Filed) (held : n.content slot = .one c)
    (child : d ∈ n.children) (stands : d.head.slot = some slot) : d = c := by
  have member := filed.filed d child slot stands
  rw [held] at member
  exact List.mem_singleton.mp member

end Node

end ScriptTypes
