import Mathlib.Data.List.Pairwise
import ScriptTypes.Proofs.Tree.Traversal

/-! In a tree whose numbers grow in preorder, two nodes of which neither is below the other come in
the same order in both traversals, and so do all nodes below them. -/

namespace ScriptTypes

theorem related_of_pairwise {α : Type} {R : α → α → Prop} {items : List α} (pairwise : items.Pairwise R)
    {a b : α} (left : a ∈ items) (right : b ∈ items) (other : a ≠ b) : R a b ∨ R b a := by
  have symmetric : Std.Symm fun a b => R a b ∨ R b a := ⟨fun _ _ => Or.symm⟩
  have either : items.Pairwise fun a b => R a b ∨ R b a := pairwise.imp Or.inl
  exact either.forall left right other

namespace Node

def Ascending (n : Node) : Prop := n.preorder.Pairwise fun a b => a.id < b.id

/-- The node and all below it come before the other and all below that. -/
def Precedes (m n : Node) : Prop := ∀ a ∈ m.preorder, ∀ b ∈ n.preorder, a.id < b.id

namespace Ascending

variable {r m n : Node}

theorem inside (ascending : r.Ascending) (member : n ∈ r.preorder) : n.Ascending :=
  List.Pairwise.sublist (preorder_sublist member) ascending

theorem below (ascending : n.Ascending) : ∀ m ∈ n.descendants, n.id < m.id := by
  unfold Ascending at ascending
  rw [preorder_eq] at ascending
  exact (List.pairwise_cons.mp ascending).1

theorem children (ascending : n.Ascending) : n.children.Pairwise Precedes := by
  unfold Ascending at ascending
  rw [preorder_eq, descendants, preorderAll_eq_flatMap] at ascending
  exact (List.pairwise_flatMap.mp (List.pairwise_cons.mp ascending).2).2

theorem apart (ascending : r.Ascending) (left : m ∈ r.preorder) (right : n ∈ r.preorder)
    (before : m.id < n.id) : n ∈ m.descendants ∨ m.Precedes n := by
  induction r using children_induction with
  | step r ih =>
    rcases mem_preorder.mp left with rfl | left
    · rcases mem_preorder.mp right with rfl | right
      · exact absurd before (Nat.lt_irrefl _)
      · exact .inl right
    · rcases mem_preorder.mp right with rfl | right
      · exact absurd before (Nat.lt_asymm (ascending.below m left))
      · obtain ⟨c, child, left⟩ := mem_descendants.mp left
        obtain ⟨d, other, right⟩ := mem_descendants.mp right
        by_cases same : c = d
        · subst same
          have inside := ascending.inside (mem_preorder.mpr (.inr (mem_descendants_of_child child)))
          exact ih c child inside left right
        · rcases related_of_pairwise ascending.children child other same with earlier | later
          · refine .inr fun a below b under => ?_
            exact earlier a (preorder_trans below left) b (preorder_trans under right)
          · exact absurd before (Nat.lt_asymm (later n right m left))

/-- What comes earlier with children first is below or has a smaller number. -/
theorem postorder (ascending : n.Ascending) : n.postorder.Pairwise fun a b =>
    b ∉ a.preorder ∧ (a ∈ b.descendants ∨ a.id < b.id) := by
  induction n using children_induction with
  | step n ih =>
    have within : ∀ c : Node, ∀ a ∈ c.postorder, a ∈ c.preorder := fun c a member =>
      c.postorder_perm.mem_iff.mp member
    rw [postorder_eq, descendantsUp, postorderAll_eq_flatMap]
    refine List.pairwise_append.mpr
      ⟨List.pairwise_flatMap.mpr ⟨?_, ?_⟩, List.pairwise_singleton _ _, ?_⟩
    · intro c child
      exact ih c child (ascending.inside (mem_preorder.mpr (.inr (mem_descendants_of_child child))))
    · refine ascending.children.imp ?_
      intro c d earlier a first b second
      have first := within c a first
      have second := within d b second
      refine ⟨?_, .inr (earlier a first b second)⟩
      intro inside
      exact absurd (earlier b (preorder_trans inside first) b second) (Nat.lt_irrefl _)
    · intro a first b last
      obtain ⟨c, child, first⟩ := List.mem_flatMap.mp first
      rw [List.mem_singleton.mp last]
      have below := mem_descendants.mpr ⟨c, child, within c a first⟩
      refine ⟨?_, .inl below⟩
      intro inside
      exact absurd (ascending.below n (descendants_trans inside below)) (Nat.lt_irrefl _)

end Ascending

end Node

end ScriptTypes
