import Mathlib.Data.List.Perm.Basic
import ScriptTypes.Tree.Basic

/-! Membership in the traversals of a tree, and induction from everything below a node to the node.
Both traversals list the same nodes the same number of times. -/

namespace ScriptTypes

namespace Node

theorem preorderAll_eq_flatMap (nodes : List Node) : preorderAll nodes = nodes.flatMap preorder := by
  induction nodes with
  | nil => rfl
  | cons node nodes ih => rw [preorderAll, ih, List.flatMap_cons]

theorem postorderAll_eq_flatMap (nodes : List Node) :
    postorderAll nodes = nodes.flatMap postorder := by
  induction nodes with
  | nil => rfl
  | cons node nodes ih => rw [postorderAll, ih, List.flatMap_cons]

theorem preorder_eq (n : Node) : n.preorder = n :: n.descendants := by
  cases n
  rfl

theorem postorder_eq (n : Node) : n.postorder = n.descendantsUp ++ [n] := by
  cases n
  rfl

theorem preorderAll_append (nodes more : List Node) :
    preorderAll (nodes ++ more) = preorderAll nodes ++ preorderAll more := by
  simp only [preorderAll_eq_flatMap, List.flatMap_append]

theorem preorderAll_singleton (n : Node) : preorderAll [n] = n :: preorderAll n.children := by
  rw [preorderAll, preorder_eq, preorderAll, List.append_nil]
  rfl

theorem mem_preorder_self (n : Node) : n ∈ n.preorder := by
  rw [preorder_eq]
  exact List.mem_cons_self

theorem mem_descendants {m n : Node} : m ∈ n.descendants ↔ ∃ c ∈ n.children, m ∈ c.preorder := by
  rw [descendants, preorderAll_eq_flatMap, List.mem_flatMap]

theorem mem_preorder {m n : Node} : m ∈ n.preorder ↔ m = n ∨ m ∈ n.descendants := by
  rw [preorder_eq, List.mem_cons]

theorem mem_descendants_of_child {c n : Node} (child : c ∈ n.children) : c ∈ n.descendants :=
  mem_descendants.mpr ⟨c, child, mem_preorder_self c⟩

/-- What holds of a node as soon as it holds of its children holds of every node. -/
theorem children_induction {motive : Node → Prop}
    (step : ∀ n : Node, (∀ c ∈ n.children, motive c) → motive n) (n : Node) : motive n := by
  refine @Node.rec motive (fun nodes => ∀ c ∈ nodes, motive c) ?_ ?_ ?_ n
  · intro head children ih
    exact step (mk head children) ih
  · intro c member
    cases member
  · intro head tail first rest c member
    rcases List.mem_cons.mp member with rfl | member
    · exact first
    · exact rest c member

theorem preorder_trans {m n r : Node} (inner : m ∈ n.preorder) (outer : n ∈ r.preorder) :
    m ∈ r.preorder := by
  induction r using children_induction with
  | step r ih =>
    rcases mem_preorder.mp outer with rfl | below
    · exact inner
    · obtain ⟨c, child, member⟩ := mem_descendants.mp below
      exact mem_preorder.mpr (.inr (mem_descendants.mpr ⟨c, child, ih c child member⟩))

theorem preorder_closed {r : Node} : ∀ n ∈ r.preorder, ∀ c ∈ n.children, c ∈ r.preorder := by
  intro n member c child
  exact preorder_trans (mem_preorder.mpr (.inr (mem_descendants_of_child child))) member

theorem descendants_trans {m n r : Node} (inner : m ∈ n.preorder) (outer : n ∈ r.descendants) :
    m ∈ r.descendants := by
  obtain ⟨c, child, member⟩ := mem_descendants.mp outer
  exact mem_descendants.mpr ⟨c, child, preorder_trans inner member⟩

theorem child_sublist {c n : Node} (child : c ∈ n.children) : c.preorder.Sublist n.descendants := by
  rw [descendants, preorderAll_eq_flatMap, List.flatMap_def]
  exact List.sublist_flatten_of_mem (List.mem_map_of_mem child)

theorem preorder_sublist {n r : Node} (member : n ∈ r.preorder) : n.preorder.Sublist r.preorder := by
  induction r using children_induction with
  | step r ih =>
    rcases mem_preorder.mp member with rfl | below
    · exact .refl _
    · obtain ⟨c, child, inside⟩ := mem_descendants.mp below
      rw [preorder_eq r]
      exact ((ih c child inside).trans (child_sublist child)).cons r

/-- Of two nodes at most one is below the other. -/
theorem preorder_antisymm {m n : Node} (inner : m ∈ n.preorder) (outer : n ∈ m.preorder) :
    m = n := by
  rcases mem_preorder.mp inner with same | below
  · exact same
  · obtain ⟨c, child, inside⟩ := mem_descendants.mp below
    have shorter := (child_sublist child).length_le
    have whole : n.preorder.length = n.descendants.length + 1 := by
      rw [preorder_eq, List.length_cons]
    have around := (preorder_sublist (preorder_trans outer inside)).length_le
    omega

/-- What holds of a node as soon as it holds of everything below holds of every node. -/
theorem descendants_induction {motive : Node → Prop}
    (step : ∀ n : Node, (∀ m ∈ n.descendants, motive m) → motive n) (n : Node) : motive n := by
  have everywhere : ∀ m ∈ n.preorder, motive m := by
    induction n using children_induction with
    | step n ih =>
      have below : ∀ m ∈ n.descendants, motive m := by
        intro m member
        obtain ⟨c, child, member⟩ := mem_descendants.mp member
        exact ih c child m member
      intro m member
      rcases mem_preorder.mp member with rfl | member
      · exact step m below
      · exact below m member
  exact everywhere n (mem_preorder_self n)

theorem postorder_perm (n : Node) : n.postorder.Perm n.preorder := by
  induction n using children_induction with
  | step n ih =>
    rw [preorder_eq, postorder_eq, descendants, descendantsUp, preorderAll_eq_flatMap,
      postorderAll_eq_flatMap]
    have below : (n.children.flatMap postorder).Perm (n.children.flatMap preorder) :=
      List.Perm.flatMap_left n.children ih
    exact (List.perm_append_singleton n _).trans (below.cons n)

theorem descendantsUp_perm (n : Node) : n.descendantsUp.Perm n.descendants := by
  rw [descendants, descendantsUp, preorderAll_eq_flatMap, postorderAll_eq_flatMap]
  exact List.Perm.flatMap_left n.children fun c _ => postorder_perm c

end Node

namespace Content

variable {α β : Type}

theorem mem_ofParts {lists : List Slot} {slot : Slot} {items : List α} {standsIn : α → Option Slot}
    {f : α → β} {b : β}
    (member : b ∈ (ofParts lists slot (items.map fun a => (standsIn a, f a))).toList) :
    ∃ a ∈ items, standsIn a = some slot ∧ f a = b := by
  unfold ofParts at member
  split at member
  · obtain ⟨part, listed, picked⟩ := List.mem_filterMap.mp member
    obtain ⟨a, item, rfl⟩ := List.mem_map.mp listed
    split at picked
    · next stands => exact ⟨a, item, stands, Option.some.inj picked⟩
    · cases picked
  · split at member
    · next held found =>
      obtain ⟨before, after, split, _⟩ := List.lookup_eq_some_iff.mp found
      have listed : (some slot, held) ∈ items.map fun a => (standsIn a, f a) := by simp [split]
      obtain ⟨a, item, same⟩ := List.mem_map.mp listed
      obtain ⟨stands, rfl⟩ := Prod.mk.inj same
      exact ⟨a, item, stands, (List.mem_singleton.mp member).symm⟩
    · cases member

instance (content : Content α) (Q : α → Prop) [DecidablePred Q] :
    Decidable (∃ a, content = .one a ∧ Q a) :=
  match content with
  | .one a => decidable_of_iff (Q a)
      ⟨fun holds => ⟨a, rfl, holds⟩, by rintro ⟨_, ⟨⟩, holds⟩; exact holds⟩
  | .empty => isFalse (by rintro ⟨_, ⟨⟩, _⟩)
  | .many _ => isFalse (by rintro ⟨_, ⟨⟩, _⟩)

end Content

theorem Node.child_of_content {n m : Node} {slot : Slot} (member : m ∈ (n.content slot).toList) :
    m ∈ n.children ∧ m.head.slot = some slot := by
  obtain ⟨c, child, stands, rfl⟩ := Content.mem_ofParts member
  exact ⟨child, stands⟩

theorem Node.child_of_one {n m : Node} {slot : Slot} (held : n.content slot = .one m) :
    m ∈ n.children ∧ m.head.slot = some slot := by
  refine child_of_content ?_
  rw [held]
  exact List.mem_singleton.mpr rfl

end ScriptTypes
