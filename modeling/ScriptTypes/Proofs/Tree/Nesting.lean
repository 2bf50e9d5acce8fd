import Mathlib.Data.List.Nodup
import ScriptTypes.Proofs.Tree.Places

/-! Every function of a tree that was read opens the next scope, and its children belong to that
scope; only the name that a declaration declares belongs to the scope around it. All other nodes
pass their own scope on. -/

namespace ScriptTypes

def Node.Names (n c : Node) : Prop := n.kind = .functionDeclaration ∧ c.head.slot = some .id

instance (n c : Node) : Decidable (n.Names c) := inferInstanceAs (Decidable (_ ∧ _))

/-- What a node passes on to its children. -/
structure Node.Nested (n : Node) : Prop where
  plain : n.kind.isFunction = false → n.head.inner = n.head.scope
  opens : n.kind.isFunction = true → n.head.scope < n.head.inner
  child : ∀ c ∈ n.children, c.head.scope = if n.Names c then n.head.scope else n.head.inner
  named : ∀ c ∈ n.children, n.Names c → c.kind = .identifier
  leaf : n.kind.slots = [] → n.children = []

def Node.functionsAmong (nodes : List Node) : List Node :=
  (preorderAll nodes).filter (·.kind.isFunction)

theorem Node.functionsAmong_singleton (n : Node) :
    functionsAmong [n] =
      if n.kind.isFunction then n :: functionsAmong n.children else functionsAmong n.children := by
  unfold functionsAmong
  rw [preorderAll_singleton, List.filter_cons]

/-- What a reading that takes the counter from `first` to `last` makes of scopes. -/
structure Nesting (first last : Counter) (nodes : List Node) : Prop where
  scope : last.scope = first.scope + (Node.functionsAmong nodes).length
  inners : (Node.functionsAmong nodes).map (·.head.inner) =
    List.range' first.scope (Node.functionsAmong nodes).length
  nested : ∀ n ∈ Node.preorderAll nodes, n.Nested

namespace Nesting

variable {first middle last : Counter} {nodes more : List Node}

theorem nil : Nesting first first [] where
  scope := rfl
  inners := rfl
  nested n member := by cases member

theorem scope_le (nesting : Nesting first last nodes) : first.scope ≤ last.scope := by
  rw [nesting.scope]
  exact Nat.le_add_right _ _

theorem append (left : Nesting first middle nodes) (right : Nesting middle last more) :
    Nesting first last (nodes ++ more) := by
  have split : Node.functionsAmong (nodes ++ more) =
      Node.functionsAmong nodes ++ Node.functionsAmong more := by
    unfold Node.functionsAmong
    rw [Node.preorderAll_append, List.filter_append]
  refine ⟨?_, ?_, ?_⟩
  · rw [split, List.length_append, right.scope, left.scope, Nat.add_assoc]
  · rw [split, List.map_append, left.inners, right.inners, left.scope, List.length_append,
      List.range'_append_1]
  · intro n member
    rw [Node.preorderAll_append] at member
    rcases List.mem_append.mp member with member | member
    · exact left.nested n member
    · exact right.nested n member

theorem parent {n : Node} {opened : Counter}
    (scope : opened.scope = first.scope + if n.kind.isFunction then 1 else 0)
    (inner : n.kind.isFunction = true → n.head.inner = first.scope)
    (children : Nesting opened last n.children) (nested : n.Nested) : Nesting first last [n] := by
  have whole := n.functionsAmong_singleton
  refine ⟨?_, ?_, ?_⟩
  · rw [whole, children.scope, scope]
    split
    · rw [List.length_cons, Nat.add_assoc, Nat.add_comm 1]
    · rfl
  · rw [whole]
    split at scope
    · next function =>
      rw [if_pos function, List.map_cons, children.inners, inner function, scope, List.length_cons,
        List.range'_succ]
    · next plain =>
      rw [if_neg plain, children.inners, scope]
      rfl
  · intro m member
    rw [Node.preorderAll_singleton] at member
    rcases List.mem_cons.mp member with rfl | member
    · exact nested
    · exact children.nested m member

end Nesting

/-- What a function is bound to through a slot is an identifier. -/
theorem Binding.identifier_of_content {content : Content Node} {bound : Option Binding}
    (binds : ofContent content = .ok bound) : ∀ n ∈ content.toList, n.kind = .identifier := by
  cases content with
  | empty => exact fun n none => (List.not_mem_nil none).elim
  | many nodes => cases binds
  | one node =>
    intro n only
    rw [List.mem_singleton.mp only]
    change node.form.kind = .identifier
    unfold ofContent at binds
    dsimp only at binds
    split at binds
    · next form => rw [form]; rfl
    · cases binds

/-- How far the children are in their scopes and slots while these slots are still to be read. -/
structure Opening.Nests (o : Opening) (opened : Counter) (slots : List Slot) (r : Reading)
    (middle : Counter) : Prop where
  distinct : slots.Nodup
  awaits : r.Awaits slots
  nesting : Nesting opened middle r.children
  child : ∀ c ∈ r.children, ∃ slot, c.head.slot = some slot ∧ c.head.scope = o.childScope slot
  filed : ∀ c ∈ r.children, ∀ slot, c.head.slot = some slot → c ∈ (r.content slot).toList

namespace Opening

variable {o : Opening} {opened middle next : Counter} {slot : Slot} {slots : List Slot} {r : Reading}

theorem Nests.add {content : Content Node} (nests : o.Nests opened (slot :: slots) r middle)
    (nesting : Nesting middle next content.toList)
    (stands : ∀ n ∈ content.toList, n.head.scope = o.childScope slot ∧ n.head.slot = some slot) :
    o.Nests opened slots (r.add slot content) next := by
  have placed : ∀ n ∈ content.toList, n.head.slot = some slot := fun n member => (stands n member).2
  refine ⟨nests.distinct.of_cons, nests.awaits.add nests.distinct placed,
    nests.nesting.append nesting, ?_, ?_⟩
  · intro c member
    rcases List.mem_append.mp member with old | new
    · exact nests.child c old
    · exact ⟨slot, placed c new, (stands c new).1⟩
  · intro c member other stood
    rcases List.mem_append.mp member with old | new
    · have apart : other ≠ slot := by
        rintro rfl
        exact (nests.awaits other List.mem_cons_self).2 c old stood
      rw [r.content_add_of_ne content apart placed]
      exact nests.filed c old other stood
    · obtain rfl : slot = other := Option.some.inj ((placed c new).symm.trans stood)
      rw [Reading.content_add_self nests.awaits placed]
      exact new

theorem nests_begun (o : Opening) (opened : Counter) :
    o.Nests opened o.kind.slots {} opened where
  distinct := o.kind.slots_nodup
  awaits := Reading.awaits_empty _
  nesting := .nil
  child c none := by cases none
  filed c none := by cases none

theorem nested_of_close {n : Node} (closed : o.close r = .ok n)
    (plain : o.kind.isFunction = false → o.inner = o.place.scope)
    (opens : o.kind.isFunction = true → o.place.scope < o.inner)
    (nests : o.Nests opened [] r middle) (leaf : o.kind.slots = [] → r.children = []) :
    n.Nested := by
  obtain ⟨f, formed, rfl⟩ := close_eq_ok closed
  obtain ⟨sameKind, bound⟩ := form_eq_ok formed
  refine ⟨?_, ?_, ?_, ?_, ?_⟩
  · intro other
    exact plain (sameKind ▸ other)
  · intro function
    exact opens (sameKind ▸ function)
  · intro c member
    obtain ⟨slot, stands, scope⟩ := nests.child c member
    change _ = if f.kind = .functionDeclaration ∧ c.head.slot = some .id then o.place.scope else o.inner
    rw [scope, sameKind, stands]
    simp only [childScope, Option.some.injEq]
  · rintro c member ⟨declaration, stands⟩
    change f.kind = .functionDeclaration at declaration
    cases f with
    | function expression own declarator =>
      exact Binding.identifier_of_content (bound expression own declarator rfl).1 c
        (nests.filed c member .id stands)
    | _ => cases declaration
  · intro none
    exact leaf (sameKind ▸ none)

end Opening

/-- What is read belongs to the scope and slot of its place, and nests. -/
abbrev Nestles (place : Place) (first : Counter) (nodes : List Node) (last : Counter) : Prop :=
  place.scope < first.scope → Nesting first last nodes ∧
    ∀ n ∈ nodes, n.head.scope = place.scope ∧ n.head.slot = place.slot

theorem readNode_nestles {place : Place} {kind : Kind} {fields : List (String × Json)}
    {child : Slot → Place → ReadM (Content Node)} (reads : ∀ slot, Yields Nestles (child slot))
    {first last : Counter} {n : Node}
    (ran : readNode place kind fields child first = .ok (n, last)) :
    Nestles place first [n] last := by
  intro around
  obtain ⟨o, opened, numbered, ran⟩ := ReadM.bind_eq_ok.mp ran
  obtain ⟨r, _, read, ran⟩ := ReadM.bind_eq_ok.mp ran
  obtain ⟨_, closed, same⟩ := ReadM.ofFault_eq_ok.mp ran
  cases same
  obtain ⟨_, rfl, rfl, _, rfl, inner⟩ := openNode_eq_ok numbered
  have grows : first.scope ≤ first.scope + if o.kind.isFunction then 1 else 0 :=
    Nat.le_add_right _ _
  have innerOpen : o.inner < first.scope + if o.kind.isFunction then 1 else 0 := by
    rw [inner]
    split
    · exact Nat.lt_succ_self _
    · exact around
  have nests := o.readSlots_induction
    (motive := o.Nests ⟨first.node + 1, first.scope + if o.kind.isFunction then 1 else 0⟩)
    (by
      intro slot slots r middle content next nests held
      have reached := nests.nesting.scope_le
      have outer : (o.childPlace r slot).scope < middle.scope := o.childScope_lt slot
        (Nat.lt_of_lt_of_le (Nat.lt_of_lt_of_le around grows) reached)
        (Nat.lt_of_lt_of_le innerOpen reached)
      obtain ⟨nesting, stands⟩ := reads slot _ _ _ _ held outer
      exact nests.add nesting stands)
    (o.nests_begun _) read
  have nested : n.Nested := by
    refine o.nested_of_close closed ?_ ?_ nests ?_
    · intro other
      rw [inner, if_neg (by rw [other]; exact Bool.false_ne_true)]
    · intro function
      rw [inner, if_pos function]
      exact around
    · intro none
      rw [none] at read
      cases ReadM.pure_eq_ok.mp read
      rfl
  obtain ⟨f, formed, rfl⟩ := o.close_eq_ok closed
  have sameKind : f.kind = o.kind := (o.form_eq_ok formed).1
  refine ⟨.parent ?_ ?_ nests.nesting nested, ?_⟩
  · change _ = _ + if f.kind.isFunction then 1 else 0
    rw [sameKind]
  · intro function
    change f.kind.isFunction = true at function
    rw [sameKind] at function
    exact inner.trans (if_pos function)
  · intro m member
    rw [List.mem_singleton.mp member]
    exact ⟨rfl, rfl⟩

theorem nestles_compositional : Compositional Nestles where
  nil _ _ _ := ⟨.nil, fun n none => by cases none⟩
  append place first middle last nodes more left right around := by
    obtain ⟨nesting, stands⟩ := left around
    obtain ⟨later, follows⟩ := right (Nat.lt_of_lt_of_le around nesting.scope_le)
    refine ⟨nesting.append later, ?_⟩
    intro n member
    rcases List.mem_append.mp member with member | member
    · exact stands n member
    · exact follows n member
  node _ _ _ _ _ _ _ reads ran := readNode_nestles reads ran

/-- Those that open scopes: the root and all functions below it. -/
def Node.scopeOwners (root : Node) : List Node := root :: functionsAmong root.children

theorem Node.mem_functionsAmong_children {f n : Node} :
    f ∈ functionsAmong n.children ↔ f ∈ n.descendants ∧ f.kind.isFunction = true :=
  List.mem_filter

/-- The scopes of a whole tree: the root opens the first, functions open the others in turn. -/
structure Node.Rooted (root : Node) : Prop where
  kind : root.kind = .statement .program
  scope : root.head.scope = 0
  inners : root.scopeOwners.map (·.head.inner) = List.range root.scopeOwners.length
  nested : ∀ n ∈ root.preorder, n.Nested

namespace Node.Rooted

variable {root n : Node}

/-- A scope has one owner. -/
theorem owner_unique (rooted : root.Rooted) {f g : Node} (left : f ∈ root.scopeOwners)
    (right : g ∈ root.scopeOwners) (same : f.head.inner = g.head.inner) : f = g := by
  have distinct : (root.scopeOwners.map (·.head.inner)).Nodup := by
    rw [rooted.inners]
    exact List.nodup_range
  exact List.inj_on_of_nodup_map distinct left right same

theorem function_owner (rooted : root.Rooted) (member : n ∈ root.preorder)
    (function : n.kind.isFunction = true) : n ∈ root.scopeOwners := by
  rcases Node.mem_preorder.mp member with rfl | below
  · rw [rooted.kind] at function
    cases function
  · exact List.mem_cons_of_mem _ (mem_functionsAmong_children.mpr ⟨below, function⟩)

end Node.Rooted

theorem Node.rooted_of_ofJson {tree : Json} {root : Node} (accepted : ofJson tree = .ok root) :
    root.Rooted := by
  have kind := (ofJson_numbered accepted).1
  obtain ⟨last, read⟩ := ofJson_eq_ok accepted
  obtain ⟨fields, ran⟩ := readProgram_eq_ok read
  obtain ⟨nesting, stands⟩ := readNode_nestles
    (fun slot => readField_yields nestles_compositional slot.text fields) ran Nat.one_pos
  have nested : ∀ n ∈ root.preorder, n.Nested := by
    intro n member
    refine nesting.nested n ?_
    rw [preorderAll_singleton]
    exact (preorder_eq root) ▸ member
  have outer : root.head.scope = 0 := (stands root (List.mem_singleton.mpr rfl)).1
  have inner : root.head.inner = 0 :=
    ((nested root root.mem_preorder_self).plain (by rw [kind]; rfl)).trans outer
  have functions : functionsAmong [root] = functionsAmong root.children := by
    rw [functionsAmong_singleton, kind]
    rfl
  have inners := nesting.inners
  rw [functions] at inners
  refine ⟨kind, outer, ?_, nested⟩
  rw [scopeOwners, List.map_cons, inners, inner, List.length_cons, List.range_eq_range',
    List.range'_succ]

end ScriptTypes
