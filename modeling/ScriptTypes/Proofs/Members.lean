import ScriptTypes.Proofs.Inference.Consulting
import ScriptTypes.Proofs.Program
import ScriptTypes.Proofs.Tree.Nesting
import ScriptTypes.Proofs.Tree.Raw

/-! The program and every function list the nodes of the scope that they open without entering
another. Together they list every node below the root exactly once, apart from the names of declared
functions, which none of them lists: such a name belongs to the scope around a function that is not
entered. -/

namespace ScriptTypes

namespace Node

open scoped List

theorem inScopeAll_eq_flatMap (s : ScopeId) (nodes : List Node) :
    inScopeAll s nodes = nodes.flatMap (inScope s) := by
  induction nodes with
  | nil => rfl
  | cons n nodes ih => rw [inScopeAll, ih, List.flatMap_cons]

theorem inScope_eq (s : ScopeId) (n : Node) :
    n.inScope s = if n.head.scope = s then
      n :: if n.head.inner = s then inScopeAll s n.children else [] else [] := by
  cases n
  rw [inScope]
  rfl

theorem scope_of_inScope {s : ScopeId} {m n : Node} (listed : m ∈ n.inScope s) :
    m.head.scope = s := by
  induction n using children_induction with
  | step n ih =>
    rw [inScope_eq] at listed
    split at listed
    · next here =>
      rcases List.mem_cons.mp listed with rfl | listed
      · exact here
      · split at listed
        · rw [inScopeAll_eq_flatMap] at listed
          obtain ⟨c, child, listed⟩ := List.mem_flatMap.mp listed
          exact ih c child listed
        · cases listed
    · cases listed

theorem scope_of_member {m n : Node} (member : m ∈ n.members) : m.head.scope = n.head.inner := by
  unfold members at member
  rw [inScopeAll_eq_flatMap] at member
  obtain ⟨c, _, listed⟩ := List.mem_flatMap.mp member
  exact scope_of_inScope listed

theorem inScopeAll_sublist {s : ScopeId} {nodes : List Node}
    (each : ∀ n ∈ nodes, (n.inScope s).Sublist n.preorder) :
    (inScopeAll s nodes).Sublist (preorderAll nodes) := by
  induction nodes with
  | nil => exact .refl _
  | cons n nodes ih =>
    rw [inScopeAll, preorderAll]
    exact (each n List.mem_cons_self).append
      (ih fun m member => each m (List.mem_cons_of_mem _ member))

theorem inScope_sublist (s : ScopeId) (n : Node) : (n.inScope s).Sublist n.preorder := by
  induction n using children_induction with
  | step n ih =>
    rw [inScope_eq, preorder_eq]
    split
    · refine .cons_cons n ?_
      split
      · exact inScopeAll_sublist ih
      · exact List.nil_sublist _
    · exact List.nil_sublist _

theorem members_sublist (n : Node) : n.members.Sublist n.descendants :=
  inScopeAll_sublist fun c _ => c.inScope_sublist n.head.inner

theorem mem_preorder_of_member {n m : Node} (member : m ∈ n.members) : m ∈ n.preorder :=
  mem_preorder.mpr (.inr (n.members_sublist.mem member))

def declaredNames (n : Node) : List Node := n.children.filter fun c => n.Names c

theorem declaredNames_eq_flatMap (n : Node) :
    n.declaredNames = n.children.flatMap fun c => if n.Names c then [c] else [] := by
  unfold declaredNames
  induction n.children with
  | nil => rfl
  | cons c children ih =>
    rw [List.filter_cons, List.flatMap_cons, ih]
    by_cases names : n.Names c <;> simp [names]

theorem functionsAmong_eq_flatMap (nodes : List Node) :
    functionsAmong nodes = nodes.flatMap fun n => functionsAmong [n] := by
  induction nodes with
  | nil => rfl
  | cons n nodes ih =>
    rw [List.flatMap_cons, ← ih]
    unfold functionsAmong
    rw [preorderAll, List.filter_append, preorderAll, preorderAll, List.append_nil]

/-- The node and the functions below it list what is below it, apart from names of declared
functions. -/
def Partitioned (n : Node) : Prop :=
  n.descendants.Perm (n.members ++
    ((functionsAmong n.children).flatMap members ++ n.preorder.flatMap declaredNames))

/-- The scope around a node lists the node and, unless the node is a function, what the node lists. -/
theorem Partitioned.preorder_perm {n : Node} (partitioned : n.Partitioned) (nested : n.Nested) :
    n.preorder.Perm (n.inScope n.head.scope ++
      ((functionsAmong [n]).flatMap members ++ n.preorder.flatMap declaredNames)) := by
  rw [inScope_eq, if_pos rfl, functionsAmong_singleton]
  nth_rewrite 1 [preorder_eq]
  by_cases function : n.kind.isFunction = true
  · have apart : n.head.inner ≠ n.head.scope := Nat.ne_of_gt (nested.opens function)
    rw [if_neg apart, if_pos function, List.flatMap_cons, List.append_assoc]
    exact partitioned.cons n
  · have same := nested.plain (Bool.eq_false_iff.mpr function)
    rw [if_pos same, if_neg function]
    unfold Partitioned members at partitioned
    rw [same] at partitioned
    exact partitioned.cons n

/-- The name of a declared function stands alone and is in no scope that the function opens. -/
theorem Nested.name_alone {n c : Node} (nested : n.Nested) (leaf : c.Nested) (child : c ∈ n.children)
    (names : n.Names c) : c.preorder = [c] ∧ c.inScope n.head.inner = [] ∧
      functionsAmong [c] = [] ∧ c.declaredNames = [] := by
  have kind := nested.named c child names
  have none : c.children = [] := leaf.leaf (by rw [kind]; rfl)
  have function : n.kind.isFunction = true := by rw [names.1]; rfl
  have apart : c.head.scope ≠ n.head.inner := by
    rw [nested.child c child, if_pos names]
    exact Nat.ne_of_lt (nested.opens function)
  refine ⟨?_, ?_, ?_, ?_⟩
  · rw [preorder_eq, descendants, none]
    rfl
  · rw [inScope_eq, if_neg apart]
  · rw [functionsAmong_singleton, none, kind]
    rfl
  · rw [declaredNames, none]
    rfl

theorem Nested.child_perm {n c : Node} (nested : n.Nested) (inner : c.Nested)
    (partitioned : c.Partitioned) (child : c ∈ n.children) :
    c.preorder.Perm (c.inScope n.head.inner ++ ((functionsAmong [c]).flatMap members ++
      (c.preorder.flatMap declaredNames ++ if n.Names c then [c] else []))) := by
  by_cases names : n.Names c
  · obtain ⟨alone, unlisted, functions, unnamed⟩ := nested.name_alone inner child names
    simp [alone, unlisted, functions, unnamed, names]
  · have scope := nested.child c child
    rw [if_neg names] at scope
    rw [if_neg names, List.append_nil, ← scope]
    exact partitioned.preorder_perm inner

theorem partitioned_of_nested {n : Node} (nested : ∀ m ∈ n.preorder, m.Nested) : n.Partitioned := by
  induction n using children_induction with
  | step n ih =>
    have self := nested n n.mem_preorder_self
    have each : ∀ c ∈ n.children, c.preorder.Perm (c.inScope n.head.inner ++
        ((functionsAmong [c]).flatMap members ++
          (c.preorder.flatMap declaredNames ++ if n.Names c then [c] else []))) := by
      intro c child
      have inside : ∀ m ∈ c.preorder, m.Nested := fun m member =>
        nested m (mem_preorder.mpr (.inr (mem_descendants.mpr ⟨c, child, member⟩)))
      exact self.child_perm (inside c c.mem_preorder_self) (ih c child inside) child
    rw [Partitioned, descendants, preorderAll_eq_flatMap, members, inScopeAll_eq_flatMap,
      functionsAmong_eq_flatMap, List.flatMap_assoc, preorder_eq, List.flatMap_cons, descendants,
      preorderAll_eq_flatMap, List.flatMap_assoc, declaredNames_eq_flatMap]
    calc n.children.flatMap preorder
      _ ~ n.children.flatMap fun c => c.inScope n.head.inner ++
          ((functionsAmong [c]).flatMap members ++
            (c.preorder.flatMap declaredNames ++ if n.Names c then [c] else [])) :=
        .flatMap_left _ each
      _ ~ _ := (List.flatMap_append_perm _ _ _).symm
      _ ~ _ := .append_left _ (List.flatMap_append_perm _ _ _).symm
      _ ~ _ := .append_left _ (.append_left _ (List.flatMap_append_perm _ _ _).symm)
      _ ~ _ := .append_left _ (.append_left _ List.perm_append_comm)

def isReturn (n : Node) : Bool :=
  match n.form with
  | .statement .returnStatement => true
  | _ => false

theorem form_of_isReturn {n : Node} (returns : n.isReturn = true) :
    n.form = .statement .returnStatement := by
  unfold isReturn at returns
  split at returns
  · assumption
  · cases returns

/-- The return statements that a function's type is derived from. -/
def returns (n : Node) : List Node := n.members.filter isReturn

def returnedTypes (env : Environment) (nodes : List Node) : List (Content (InferM Descriptor)) :=
  (nodes.filter isReturn).map fun r => (r.parts env).types .argument

theorem returnedTypes_append (env : Environment) (nodes more : List Node) :
    returnedTypes env (nodes ++ more) = returnedTypes env nodes ++ returnedTypes env more := by
  simp only [returnedTypes, List.filter_append, List.map_append]

theorem returnedTypes_cons (env : Environment) (n : Node) (nodes : List Node) :
    returnedTypes env (n :: nodes) = (match n.head.form with
      | .statement .returnStatement =>
        [Content.ofParts n.head.lists .argument (typesOf env n.children)]
      | _ => []) ++ returnedTypes env nodes := by
  unfold returnedTypes
  split
  · next form =>
    have returns : n.isReturn = true := by simp [isReturn, Node.form, form]
    rw [List.filter_cons, if_pos returns]
    rfl
  · next other =>
    have plain : ¬ n.isReturn = true := fun returns => other (form_of_isReturn returns)
    rw [List.filter_cons, if_neg plain]
    rfl

theorem returnTypes_of_children {env : Environment} {s : ScopeId} {nodes : List Node}
    (each : ∀ n ∈ nodes, returnTypes env s n.children = returnedTypes env (inScopeAll s n.children)) :
    returnTypes env s nodes = returnedTypes env (inScopeAll s nodes) := by
  induction nodes with
  | nil => rfl
  | cons n nodes ih =>
    have rest := ih fun m member => each m (List.mem_cons_of_mem _ member)
    rw [returnTypes_cons, inScopeAll, inScope_eq, returnedTypes_append, ← rest]
    by_cases here : n.head.scope = s
    · rw [if_pos here, if_pos here, each n List.mem_cons_self]
      refine congrArg (· ++ _) (.trans (congrArg (_ ++ ·) ?_) (returnedTypes_cons env n _).symm)
      split
      · rfl
      · rfl
    · rw [if_neg here, if_neg here]
      rfl

/-- A function's type is derived from the return statements that it lists. -/
theorem returned_eq (env : Environment) (n : Node) :
    (n.parts env).returned n.head.inner = returnedTypes env n.members := by
  have each : ∀ s, returnTypes env s n.children = returnedTypes env (inScopeAll s n.children) := by
    intro s
    induction n using children_induction with
    | step n ih => exact returnTypes_of_children ih
  exact each n.head.inner

/-- The function is around the node, inside of every other function of the tree that is. -/
structure InnermostAround (root f n : Node) : Prop where
  around : n ∈ f.descendants
  innermost : ∀ g ∈ root.preorder, g.kind.isFunction = true → n ∈ g.descendants → f ∈ g.preorder

namespace Rooted

variable {root n : Node}

theorem partitioned (rooted : root.Rooted) (member : n ∈ root.preorder) : n.Partitioned :=
  partitioned_of_nested fun m inside => rooted.nested m (preorder_trans inside member)

theorem identifier_of_declared (rooted : root.Rooted) {f : Node} (member : f ∈ root.preorder)
    (declared : n ∈ f.declaredNames) : n.kind = .identifier := by
  obtain ⟨child, names⟩ := List.mem_filter.mp declared
  exact (rooted.nested f member).named n child (of_decide_eq_true names)

/-- What is below a node and no declared name is listed by the node or by a function below it. -/
theorem listed_of_below (rooted : root.Rooted) {m : Node} (member : n ∈ root.preorder)
    (below : m ∈ n.descendants) (other : ∀ f ∈ root.preorder, m ∉ f.declaredNames) :
    ∃ f ∈ n :: functionsAmong n.children, m ∈ f.members := by
  have found := (rooted.partitioned member).mem_iff.mp below
  rcases List.mem_append.mp found with listed | found
  · exact ⟨n, List.mem_cons_self, listed⟩
  · rcases List.mem_append.mp found with found | found
    · obtain ⟨f, function, listed⟩ := List.mem_flatMap.mp found
      exact ⟨f, List.mem_cons_of_mem _ function, listed⟩
    · obtain ⟨f, inside, declared⟩ := List.mem_flatMap.mp found
      exact absurd declared (other f (preorder_trans inside member))

theorem listed_by_function (rooted : root.Rooted) {g : Node} (member : g ∈ root.preorder)
    (function : g.kind.isFunction = true) (below : n ∈ g.descendants)
    (other : ∀ f ∈ root.preorder, n ∉ f.declaredNames) :
    ∃ f ∈ g.preorder, f.kind.isFunction = true ∧ n ∈ f.members := by
  obtain ⟨f, owner, listed⟩ := rooted.listed_of_below member below other
  rcases List.mem_cons.mp owner with rfl | owner
  · exact ⟨f, f.mem_preorder_self, function, listed⟩
  · obtain ⟨deeper, opens⟩ := mem_functionsAmong_children.mp owner
    exact ⟨f, mem_preorder.mpr (.inr deeper), opens, listed⟩

/-- A function lists what it is the innermost function around. -/
theorem member_iff_innermost (rooted : root.Rooted) {f : Node} (member : f ∈ root.preorder)
    (function : f.kind.isFunction = true) (other : ∀ g ∈ root.preorder, n ∉ g.declaredNames) :
    n ∈ f.members ↔ root.InnermostAround f n := by
  constructor
  · intro listed
    refine ⟨f.members_sublist.mem listed, ?_⟩
    intro g inside opens below
    obtain ⟨h, around, opened, also⟩ := rooted.listed_by_function inside opens below other
    have same := (scope_of_member also).symm.trans (scope_of_member listed)
    have unique := rooted.owner_unique
      (rooted.function_owner (preorder_trans around inside) opened)
      (rooted.function_owner member function) same
    exact unique ▸ around
  · rintro ⟨around, innermost⟩
    obtain ⟨h, inside, opened, listed⟩ := rooted.listed_by_function member function around other
    have outer := innermost h (preorder_trans inside member) opened (h.members_sublist.mem listed)
    exact preorder_antisymm inside outer ▸ listed

end Rooted

end Node

namespace Program

variable {p : Program}

theorem rooted_of_ofJson {settings : Settings} {tree : Json}
    (accepted : ofJson settings tree = .ok p) : p.root.Rooted := by
  obtain ⟨root, read, rfl⟩ := ofJson_eq_ok accepted
  exact Node.rooted_of_ofJson read

theorem WellFormed.owners (formed : p.WellFormed) (rooted : p.root.Rooted) :
    p.root.scopeOwners.map (·.head.inner) = List.range p.scopes.size := by
  have plain : p.root.kind.isFunction = false := by rw [formed.kind]; rfl
  rw [rooted.inners, formed.size, Node.preorder_eq, List.countP_cons, plain, Node.scopeOwners,
    List.length_cons, List.countP_eq_length_filter, Nat.add_comm]
  rfl

theorem mem_of_owner {owner : Node} (opens : owner ∈ p.root.scopeOwners) :
    owner ∈ p.root.preorder := by
  rcases List.mem_cons.mp opens with rfl | function
  · exact p.root.mem_preorder_self
  · exact Node.mem_preorder.mpr (.inr (Node.mem_functionsAmong_children.mp function).1)

theorem WellFormed.nodup_below (formed : p.WellFormed) :
    (p.root.descendants.map Node.id).Nodup := by
  have distinct := formed.distinct
  rw [Node.preorder_eq, List.map_cons] at distinct
  exact distinct.of_cons

theorem WellFormed.mem_members (formed : p.WellFormed) {n owner : Node}
    (below : n ∈ p.root.descendants) (opens : owner ∈ p.root.scopeOwners) :
    n.id ∈ owner.members.map Node.id ↔ n ∈ owner.members := by
  constructor
  · intro listed
    obtain ⟨m, member, same⟩ := List.mem_map.mp listed
    have inside : m ∈ p.root.preorder :=
      Node.preorder_trans (Node.mem_preorder_of_member member) (mem_of_owner opens)
    exact formed.eq_of_id inside (Node.mem_preorder.mpr (.inr below)) same ▸ member
  · exact fun member => List.mem_map_of_mem member

/-- What traversals list of a program. -/
structure Traversed (p : Program) : Prop where
  same : p.root.descendantsUp.Perm p.root.descendants
  once : (p.root.descendants.map Node.id).Nodup
  count : p.root.descendants.length = p.nodeCount - 1
  owners : p.root.scopeOwners.map (·.head.inner) = List.range p.scopes.size
  /-- The owner of a node's scope lists the node once, and no other owner lists it. -/
  member : ∀ n ∈ p.root.descendants, (∀ f ∈ p.root.preorder, n ∉ f.declaredNames) →
    ∀ owner ∈ p.root.scopeOwners,
      (owner.members.map Node.id).count n.id = if owner.head.inner = n.head.scope then 1 else 0
  name : ∀ f ∈ p.root.preorder, ∀ n ∈ f.declaredNames, ∀ owner ∈ p.root.scopeOwners,
    n.id ∉ owner.members.map Node.id
  derived : ∀ f ∈ p.root.preorder, (f.parts p.toEnvironment).returned f.head.inner =
    f.returns.map fun r => (r.parts p.toEnvironment).types .argument
  /-- A return statement is collected by the innermost function around it and by no other. -/
  collected : ∀ r ∈ p.root.descendants, r.isReturn = true → ∀ f ∈ p.root.preorder,
    f.kind.isFunction = true → (r ∈ f.returns ↔ p.root.InnermostAround f r)
  enclosed : ∀ g ∈ p.root.preorder, g.kind.isFunction = true → ∀ r ∈ g.descendants,
    r.isReturn = true → ∃ f ∈ g.preorder, f.kind.isFunction = true ∧ r ∈ f.returns

theorem member_count (formed : p.WellFormed) (rooted : p.root.Rooted) {n owner : Node}
    (below : n ∈ p.root.descendants) (other : ∀ f ∈ p.root.preorder, n ∉ f.declaredNames)
    (opens : owner ∈ p.root.scopeOwners) :
    (owner.members.map Node.id).count n.id =
      if owner.head.inner = n.head.scope then 1 else 0 := by
  split
  · next owns =>
    obtain ⟨f, opened, listed⟩ := rooted.listed_of_below p.root.mem_preorder_self below other
    have unique := rooted.owner_unique opens opened (owns.trans (Node.scope_of_member listed))
    have distinct : (owner.members.map Node.id).Nodup := by
      have inside := Node.preorder_sublist (mem_of_owner opens)
      refine formed.distinct.sublist (.map _ (.trans ?_ inside))
      rw [Node.preorder_eq]
      exact owner.members_sublist.cons owner
    exact List.count_eq_one_of_mem distinct (List.mem_map_of_mem (unique ▸ listed))
  · next foreign =>
    refine List.count_eq_zero.mpr ?_
    intro listed
    have member := (formed.mem_members below opens).mp listed
    exact foreign (Node.scope_of_member member).symm

theorem name_unlisted (formed : p.WellFormed) (rooted : p.root.Rooted) {f n owner : Node}
    (inside : f ∈ p.root.preorder) (declared : n ∈ f.declaredNames)
    (opens : owner ∈ p.root.scopeOwners) : n.id ∉ owner.members.map Node.id := by
  intro listed
  have once := formed.nodup_below
  rw [((rooted.partitioned p.root.mem_preorder_self).map Node.id).nodup_iff, ← List.append_assoc,
    List.map_append] at once
  have named : n.id ∈ (p.root.preorder.flatMap Node.declaredNames).map Node.id :=
    List.mem_map_of_mem (List.mem_flatMap.mpr ⟨f, inside, declared⟩)
  refine (List.disjoint_of_nodup_append once) ?_ named
  obtain ⟨m, member, same⟩ := List.mem_map.mp listed
  refine List.mem_map.mpr ⟨m, ?_, same⟩
  rcases List.mem_cons.mp opens with rfl | function
  · exact List.mem_append_left _ member
  · exact List.mem_append_right _ (List.mem_flatMap.mpr ⟨owner, function, member⟩)

theorem not_declared_of_isReturn (rooted : p.root.Rooted) {r : Node} (returns : r.isReturn = true) :
    ∀ f ∈ p.root.preorder, r ∉ f.declaredNames := by
  intro f inside declared
  have kind := rooted.identifier_of_declared inside declared
  change r.form.kind = _ at kind
  rw [Node.form_of_isReturn returns] at kind
  cases kind

theorem counted_of_ofJson {settings : Settings} {tree : Json}
    (accepted : ofJson settings tree = .ok p) :
    ∃ last, readProgram tree ⟨0, 1⟩ = .ok (p.root, last) ∧ last.node = p.nodeCount := by
  obtain ⟨root, read, rfl⟩ := ofJson_eq_ok accepted
  obtain ⟨last, ran⟩ := Node.ofJson_eq_ok read
  have numbered := (readProgram_numbered ran).2.node
  rw [Node.preorderAll, Node.preorderAll, List.append_nil, Nat.zero_add] at numbered
  exact ⟨last, ran, numbered⟩

/-- The traversals of a program that was read lose and repeat nothing, and the nodes are those that
were numbered while it was read. -/
theorem traversed_of_ofJson {settings : Settings} {tree : Json}
    (accepted : ofJson settings tree = .ok p) :
    p.Traversed ∧ ∃ last, readProgram tree ⟨0, 1⟩ = .ok (p.root, last) ∧ last.node = p.nodeCount := by
  have formed := wellFormed_of_ofJson accepted
  have rooted := rooted_of_ofJson accepted
  refine ⟨?_, counted_of_ofJson accepted⟩
  refine ⟨p.root.descendantsUp_perm, formed.nodup_below, ?_, formed.owners rooted, ?_, ?_, ?_, ?_, ?_⟩
  · obtain ⟨root, _, rfl⟩ := ofJson_eq_ok accepted
    change _ = root.preorder.length - 1
    rw [root.preorder_eq]
    rfl
  · intro n below other owner opens
    exact member_count formed rooted below other opens
  · intro f inside n declared owner opens
    exact name_unlisted formed rooted inside declared opens
  · intro f _
    exact f.returned_eq p.toEnvironment
  · intro r _ returns f inside function
    rw [Node.returns, List.mem_filter, and_iff_left returns]
    exact rooted.member_iff_innermost inside function (not_declared_of_isReturn rooted returns)
  · intro g inside function r below returns
    obtain ⟨f, around, opens, listed⟩ := rooted.listed_by_function inside function below
      (not_declared_of_isReturn rooted returns)
    exact ⟨f, around, opens, List.mem_filter.mpr ⟨listed, returns⟩⟩

open Raw in
/-- In `function f() { return function () { return 1; }; return x; } return;` the last statement is
in no function. -/
def returningOften : Json :=
  program [
    function "f" [closure [literal (.int 1)], identifier "x"],
    node "ReturnStatement" []]

theorem returningOften_traversed : ∃ p, ofJson .standard returningOften = .ok p ∧
    p.nodeCount = 12 ∧ p.root.scopeOwners.map (·.returns.length) = [1, 2, 1] ∧
    (∃ f ∈ p.root.preorder, f.declaredNames.length = 1) ∧ p.Traversed := by
  have read : ∃ p, ofJson .standard returningOften = .ok p ∧
      p.nodeCount = 12 ∧ p.root.scopeOwners.map (·.returns.length) = [1, 2, 1] ∧
      ∃ f ∈ p.root.preorder, f.declaredNames.length = 1 := by
    decide +kernel
  obtain ⟨p, accepted, count, collected, named⟩ := read
  exact ⟨p, accepted, count, collected, named, (traversed_of_ofJson accepted).1⟩

end Program

end ScriptTypes
