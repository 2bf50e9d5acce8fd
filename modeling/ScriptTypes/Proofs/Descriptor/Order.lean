import Mathlib.Order.Compare
import ScriptTypes.Descriptor.Specificity

/-! `order` is a strict linear order, so an ascending list of options stands for exactly one set,
and inserting an option neither repeats nor loses one. -/

namespace ScriptTypes

namespace Descriptor

theorem order_of_rank_ne {a b : Descriptor} (apart : a.rank ≠ b.rank) :
    order a b = Ord.compare a.rank b.rank := by
  cases a <;> cases b <;> first | rfl | simp [rank] at apart

theorem rank_le_of_order_lt {a b : Descriptor} (before : order a b = .lt) : a.rank ≤ b.rank := by
  by_cases same : a.rank = b.rank
  · exact Nat.le_of_eq same
  · rw [order_of_rank_ne same] at before
    exact Nat.le_of_lt (Nat.compare_eq_lt.mp before)

mutual
theorem order_eq_iff (a b : Descriptor) : order a b = .eq ↔ a = b := by
  by_cases same : a.rank = b.rank
  · cases a <;> cases b <;> simp [rank] at same
    case primitive.primitive => simp [order]
    case anyFunction.anyFunction => simp [order]
    case function.function a b => simpa [order] using order_eq_iff a b
    case anyCollection.anyCollection => simp [order]
    case collection.collection k a l b => simp [order, Ordering.then_eq_eq, order_eq_iff a b]
    case union.union as bs => simpa [order] using orderAll_eq_iff as bs
  · rw [order_of_rank_ne same, Nat.compare_eq_eq]
    exact ⟨fun equal => absurd equal same, fun equal => by rw [equal]⟩
theorem orderAll_eq_iff (as bs : List Descriptor) : orderAll as bs = .eq ↔ as = bs := by
  cases as <;> cases bs <;> simp [orderAll]
  case cons.cons a as b bs =>
    simp [order_eq_iff a b, orderAll_eq_iff as bs]
end

@[simp] theorem order_self (a : Descriptor) : order a a = .eq := (order_eq_iff a a).mpr rfl

mutual
theorem order_swap (a b : Descriptor) : (order a b).swap = order b a := by
  by_cases same : a.rank = b.rank
  · cases a <;> cases b <;> simp [rank] at same
    case primitive.primitive => exact Std.OrientedOrd.eq_swap.symm
    case anyFunction.anyFunction => rfl
    case function.function a b => exact order_swap a b
    case anyCollection.anyCollection => exact Std.OrientedOrd.eq_swap.symm
    case collection.collection k a l b =>
      simp only [order, Ordering.swap_then, order_swap a b]
      rw [← Std.OrientedOrd.eq_swap]
    case union.union as bs => exact orderAll_swap as bs
  · rw [order_of_rank_ne same, order_of_rank_ne (Ne.symm same)]
    exact Std.OrientedOrd.eq_swap.symm
theorem orderAll_swap (as bs : List Descriptor) : (orderAll as bs).swap = orderAll bs as := by
  cases as <;> cases bs <;> simp only [orderAll, Ordering.swap_lt, Ordering.swap_eq, Ordering.swap_gt]
  case cons.cons a as b bs =>
    rw [Ordering.swap_then, order_swap a b, orderAll_swap as bs]
end

theorem order_lt_of_gt {a b : Descriptor} (after : order a b = .gt) : order b a = .lt := by
  rw [← order_swap, after]
  rfl

theorem then_lt_trans {α : Type} {o : α → α → Ordering} {a b c : α} {ab bc ac : Ordering}
    (equal : ∀ x y, o x y = .eq → x = y)
    (firsts : o a b = .lt → o b c = .lt → o a c = .lt) (seconds : ab = .lt → bc = .lt → ac = .lt)
    (left : (o a b).then ab = .lt) (right : (o b c).then bc = .lt) : (o a c).then ac = .lt := by
  rw [Ordering.then_eq_lt] at left right ⊢
  rcases left with left | ⟨same, left⟩ <;> rcases right with right | ⟨same', right⟩
  · exact .inl (firsts left right)
  · rw [← equal b c same']
    exact .inl left
  · rw [equal a b same]
    exact .inl right
  · rw [equal a b same]
    exact .inr ⟨same', seconds left right⟩

theorem text_lt_trans {k l m : String} (kl : Ord.compare k l = .lt) (lm : Ord.compare l m = .lt) :
    Ord.compare k m = .lt := Std.TransCmp.lt_trans kl lm

mutual
theorem order_trans (a b c : Descriptor) (ab : order a b = .lt) (bc : order b c = .lt) :
    order a c = .lt := by
  have left := rank_le_of_order_lt ab
  have right := rank_le_of_order_lt bc
  by_cases same : a.rank = c.rank
  · cases a <;> cases b <;> cases c <;> simp [rank] at same left right
    case primitive.primitive.primitive => exact text_lt_trans ab bc
    case anyFunction.anyFunction.anyFunction => exact bc
    case function.function.function a b c => exact order_trans a b c ab bc
    case anyCollection.anyCollection.anyCollection => exact text_lt_trans ab bc
    case collection.collection.collection k a l b m c =>
      exact then_lt_trans (fun _ _ => Std.compare_eq_iff_eq.mp) text_lt_trans
        (order_trans a b c) ab bc
    case union.union.union as bs cs => exact orderAll_trans as bs cs ab bc
  · rw [order_of_rank_ne same]
    exact Nat.compare_eq_lt.mpr (by omega)
theorem orderAll_trans (as bs cs : List Descriptor) (ab : orderAll as bs = .lt)
    (bc : orderAll bs cs = .lt) : orderAll as cs = .lt := by
  cases as <;> cases bs <;> cases cs <;> simp only [orderAll, reduceCtorEq] at ab bc ⊢
  case cons.cons.cons a as b bs c cs =>
    exact then_lt_trans (fun x y => (order_eq_iff x y).mp) (order_trans a b c)
      (orderAll_trans as bs cs) ab bc
end

/-- In strictly ascending order, hence without repetition. -/
def Ascending (ds : List Descriptor) : Prop := ds.Pairwise fun a b => order a b = .lt

theorem Ascending.nodup {ds : List Descriptor} (ascending : Ascending ds) : ds.Nodup := by
  refine List.Pairwise.imp ?_ ascending
  intro a b before same
  rw [same, order_self] at before
  exact absurd before (by decide)

/-- Only one ascending list has given members. -/
theorem Ascending.eq_of_mem_iff {as bs : List Descriptor} (left : Ascending as)
    (right : Ascending bs) (same : ∀ d, d ∈ as ↔ d ∈ bs) : as = bs := by
  refine List.Perm.eq_of_pairwise ?_ left right
    ((List.perm_ext_iff_of_nodup left.nodup right.nodup).mpr same)
  intro a b _ _ before after
  rw [← order_swap, before] at after
  cases after

@[simp] theorem mem_insertOption {d x : Descriptor} {ds : List Descriptor} :
    x ∈ insertOption d ds ↔ x = d ∨ x ∈ ds := by
  induction ds with
  | nil => simp [insertOption]
  | cons y ys ih =>
    cases found : order d y with
    | lt => simp [insertOption, found]
    | eq =>
      have same := (order_eq_iff d y).mp found
      simp [insertOption, same]
    | gt =>
      simp only [insertOption, found, List.mem_cons, ih]
      exact or_left_comm

theorem ascending_insertOption {d : Descriptor} {ds : List Descriptor} (ascending : Ascending ds) :
    Ascending (insertOption d ds) := by
  induction ds with
  | nil => simp [insertOption, Ascending]
  | cons y ys ih =>
    obtain ⟨below, rest⟩ := List.pairwise_cons.mp ascending
    cases found : order d y with
    | lt =>
      simp only [insertOption, found]
      refine List.pairwise_cons.mpr ⟨?_, ascending⟩
      intro z member
      rcases List.mem_cons.mp member with rfl | member
      · exact found
      · exact order_trans d y z found (below z member)
    | eq => simpa only [insertOption, found] using ascending
    | gt =>
      simp only [insertOption, found]
      refine List.pairwise_cons.mpr ⟨?_, ih rest⟩
      intro z member
      rcases mem_insertOption.mp member with rfl | member
      · exact order_lt_of_gt found
      · exact below z member

@[simp] theorem mem_optionSet {x : Descriptor} {ds : List Descriptor} :
    x ∈ optionSet ds ↔ x ∈ ds := by
  induction ds with
  | nil => simp [optionSet]
  | cons d ds ih =>
    have unfolded : optionSet (d :: ds) = insertOption d (optionSet ds) := rfl
    simp [unfolded, ih]

theorem ascending_optionSet (ds : List Descriptor) : Ascending (optionSet ds) := by
  induction ds with
  | nil => exact List.Pairwise.nil
  | cons d ds ih => exact ascending_insertOption ih

end Descriptor

end ScriptTypes
