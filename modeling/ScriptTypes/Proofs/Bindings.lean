import ScriptTypes.Proofs.Resolution
import ScriptTypes.Proofs.Tree.Filing
import ScriptTypes.Proofs.Tree.Order

/-! A function is bound to its own name and to that of the declarator whose value it is, in the
scope of the identifier. Functions are bound children first, so that a name goes to the last
function with such an identifier, unless the scope is one that a function expression opens under
that name: there the expression keeps its own name. -/

namespace ScriptTypes

namespace Node

/-- The identifier names the function: it stands in the function's slot `id`, or in that of the
declarator whose value the function is. -/
inductive Titles (root i f : Node) : Prop where
  | own (held : f.content .id = .one i)
  | declarator {d : Node} (inside : d ∈ root.preorder)
      (kind : d.kind = .statement .variableDeclarator) (value : f ∈ d.children)
      (stands : f.head.slot = some .init) (held : d.content .id = .one i)

/-- The identifier binds the function to the name in the scope. -/
structure Binds (root : Node) (s : ScopeId) (name : Name) (i f : Node) : Prop where
  inside : f ∈ root.preorder
  function : f.kind.isFunction = true
  titles : root.Titles i f
  scope : i.head.scope = s
  spelled : ∃ field role spelled, i.form = .identifier field role ∧
    Name.ofField field = .ok spelled ∧ spelled.key = name.key

theorem isFunction_of_form {n : Node} {expression : Bool} {own declarator : Option Binding}
    (form : n.form = .function expression own declarator) : n.kind.isFunction = true := by
  rw [kind_of_form form]
  cases expression <;> rfl

theorem binding_of_content_iff {content : Content Node} {b : Binding} :
    Binding.ofContent content = .ok (some b) ↔ ∃ i field role, content = .one i ∧
      i.form = .identifier field role ∧ Name.ofField field = .ok b.name ∧ i.head.scope = b.scope := by
  constructor
  · intro bound
    cases content with
    | empty => cases bound
    | many nodes => cases bound
    | one i =>
      simp only [Binding.ofContent] at bound
      split at bound
      · next field role form =>
        cases named : Name.ofField field with
        | error fault => rw [named] at bound; cases bound
        | ok name =>
          rw [named] at bound
          cases bound
          exact ⟨i, field, role, rfl, form, named, rfl⟩
      · cases bound
  · rintro ⟨i, field, role, rfl, form, named, scope⟩
    simp only [Binding.ofContent, form, named, scope]
    rfl

variable {root n i j f g : Node} {s : ScopeId} {name : Name}

/-- The identifiers that name a function are those that it is bound to. -/
theorem mem_bindings_iff {scopes : Nat} (placed : ∀ m ∈ root.preorder, m.Placed scopes)
    (linked : ∀ m ∈ root.preorder, m.Linked) (kind : root.kind = .statement .program)
    (inside : f ∈ root.preorder) (b : Binding) : b ∈ f.form.bindings ↔
      f.kind.isFunction = true ∧ ∃ i field role, root.Titles i f ∧ i.form = .identifier field role ∧
        Name.ofField field = .ok b.name ∧ i.head.scope = b.scope := by
  constructor
  · intro member
    cases form : f.form with
    | function expression own declarator =>
      have function := isFunction_of_form form
      refine ⟨function, ?_⟩
      rw [form] at member
      rcases List.mem_append.mp member with member | member
      · have bound := (placed f inside).own expression own declarator form
        rw [Option.mem_toList.mp member] at bound
        obtain ⟨i, field, role, held, spells⟩ := binding_of_content_iff.mp bound
        exact ⟨i, field, role, .own held, spells⟩
      · rcases mem_preorder.mp inside with rfl | below
        · rw [kind] at function
          cases function
        · obtain ⟨d, around, child⟩ := exists_parent below
          obtain ⟨slot, fits⟩ := linked d around f child
          have bound := fits.declarator expression own declarator form
          rw [Option.mem_toList.mp member] at bound
          unfold declaratorFor at bound
          split at bound
          · next value =>
            obtain ⟨i, field, role, held, spells⟩ := binding_of_content_iff.mp bound
            have stands := value.2 ▸ fits.slot
            exact ⟨i, field, role, .declarator around value.1 child stands held, spells⟩
          · cases bound
    | _ => rw [form] at member; cases member
  · rintro ⟨function, i, field, role, titles, form, named, scope⟩
    obtain ⟨expression, own, declarator, shape⟩ := function_of_kind function
    rw [shape]
    cases titles with
    | own held =>
      have bound := (placed f inside).own expression own declarator shape
      have known := binding_of_content_iff.mpr ⟨i, field, role, held, form, named, scope⟩
      have same := Except.ok.inj (bound.symm.trans known)
      exact List.mem_append_left _ (Option.mem_toList.mpr same)
    | @declarator d around declares value stands held =>
      obtain ⟨slot, fits⟩ := linked d around f value
      cases fits.slot.symm.trans stands
      have bound := fits.declarator expression own declarator shape
      rw [declaratorFor, if_pos ⟨declares, rfl⟩] at bound
      have known := binding_of_content_iff.mpr ⟨i, field, role, held, form, named, scope⟩
      have same := Except.ok.inj (bound.symm.trans known)
      exact List.mem_append_right _ (Option.mem_toList.mpr same)

def isBound (s : ScopeId) (name : Name) (n : Node) : Bool :=
  n.form.bindings.any fun b => b.scope = s && b.name.key = name.key

theorem isBound_iff_binds {scopes : Nat} (placed : ∀ m ∈ root.preorder, m.Placed scopes)
    (linked : ∀ m ∈ root.preorder, m.Linked) (kind : root.kind = .statement .program)
    (inside : f ∈ root.preorder) : f.isBound s name = true ↔ ∃ i, root.Binds s name i f := by
  simp only [isBound, List.any_eq_true, Bool.and_eq_true, decide_eq_true_eq]
  constructor
  · rintro ⟨b, member, here, same⟩
    obtain ⟨function, i, field, role, titles, form, named, scope⟩ :=
      (mem_bindings_iff placed linked kind inside b).mp member
    exact ⟨i, inside, function, titles, scope.trans here, field, role, b.name, form, named, same⟩
  · rintro ⟨i, _, function, titles, scope, field, role, spelled, form, named, same⟩
    refine ⟨⟨spelled, s⟩, ?_, rfl, same⟩
    exact (mem_bindings_iff placed linked kind inside _).mpr
      ⟨function, i, field, role, titles, form, named, scope⟩

namespace Rooted

theorem function_below (rooted : root.Rooted) (member : f ∈ root.preorder)
    (function : f.kind.isFunction = true) :
    f ∈ root.descendants ∧ ∀ g ∈ root.preorder, f ∉ g.declaredNames := by
  constructor
  · rcases mem_preorder.mp member with rfl | below
    · rw [rooted.kind] at function
      cases function
    · exact below
  · intro g around declared
    rw [rooted.identifier_of_declared around declared] at function
    cases function

theorem member_of_owner (rooted : root.Rooted) (opens : f ∈ root.scopeOwners)
    (below : n ∈ root.descendants) (other : ∀ g ∈ root.preorder, n ∉ g.declaredNames)
    (scope : n.head.scope = f.head.inner) : n ∈ f.members := by
  obtain ⟨h, found, listed⟩ := rooted.listed_of_below root.mem_preorder_self below other
  have same := rooted.owner_unique found opens ((scope_of_member listed).symm.trans scope)
  exact same ▸ listed

/-- A function is bound in the scope that it belongs to or, by the own name of an expression, in the
one that it opens. -/
theorem scope_of_titles (rooted : root.Rooted) (inside : f ∈ root.preorder)
    (titles : root.Titles i f) : i.head.scope = f.head.scope ∨
      f.kind ≠ .functionDeclaration ∧ i.head.scope = f.head.inner := by
  cases titles with
  | own held =>
    obtain ⟨child, stands⟩ := child_of_one held
    rw [(rooted.nested f inside).child i child]
    split
    · exact .inl rfl
    · next unnamed => exact .inr ⟨fun declaration => unnamed ⟨declaration, stands⟩, rfl⟩
  | @declarator d around kind value stands held =>
    have nested := rooted.nested d around
    have passes : ∀ c ∈ d.children, c.head.scope = d.head.inner := by
      intro c child
      rw [nested.child c child, if_neg]
      rintro ⟨declaration, _⟩
      rw [kind] at declaration
      cases declaration
    exact .inl ((passes i (child_of_one held).1).trans (passes f value).symm)

theorem inner_le_scope (rooted : root.Rooted) (inside : f ∈ root.preorder)
    (below : g ∈ f.descendants) (function : g.kind.isFunction = true) :
    f.head.inner ≤ g.head.scope := by
  have grows : ∀ m ∈ root.preorder, ∀ n ∈ m.preorder, m.head.scope ≤ n.head.scope := by
    intro m
    induction m using children_induction with
    | step m ih =>
      intro inside n member
      rcases mem_preorder.mp member with rfl | member
      · exact Nat.le_refl _
      · obtain ⟨c, child, member⟩ := mem_descendants.mp member
        have nested := rooted.nested m inside
        refine Nat.le_trans ?_ (ih c child (preorder_closed m inside c child) n member)
        rw [nested.child c child]
        split
        · exact Nat.le_refl _
        · cases opens : m.kind.isFunction with
          | false => exact Nat.le_of_eq (nested.plain opens).symm
          | true => exact Nat.le_of_lt (nested.opens opens)
  obtain ⟨c, child, member⟩ := mem_descendants.mp below
  have nested := rooted.nested f inside
  have within := preorder_closed f inside c child
  by_cases names : f.Names c
  · obtain ⟨alone, _⟩ := nested.name_alone (rooted.nested c within) child names
    rw [alone] at member
    rw [List.mem_singleton.mp member, nested.named c child names] at function
    cases function
  · have scope := nested.child c child
    rw [if_neg names] at scope
    exact scope ▸ grows c within g member

/-- Of two functions bound to a name in a scope, the outer one opens the scope. -/
theorem inner_of_around (rooted : root.Rooted) (outer : root.Binds s name i f)
    (inner : root.Binds s name j g) (below : g ∈ f.descendants) : f.head.inner = s := by
  have opens := (rooted.nested f outer.inside).opens outer.function
  have least := rooted.inner_le_scope outer.inside below inner.function
  have deeper := (rooted.nested g inner.inside).opens inner.function
  rcases rooted.scope_of_titles outer.inside outer.titles with here | ⟨_, here⟩
  · have around : f.head.scope < g.head.scope := Nat.lt_of_lt_of_le opens least
    rw [← here, outer.scope] at around
    rcases rooted.scope_of_titles inner.inside inner.titles with there | ⟨_, there⟩
    · rw [← there, inner.scope] at around
      exact absurd around (Nat.lt_irrefl s)
    · rw [← there, inner.scope] at deeper
      exact absurd (Nat.lt_trans around deeper) (Nat.lt_irrefl s)
  · exact here.symm.trans outer.scope

theorem inside_of_inner (rooted : root.Rooted) (opener : f ∈ root.preorder)
    (opens : f.kind.isFunction = true) (inner : f.head.inner = s)
    (binds : root.Binds s name j g) : g ∈ f.preorder := by
  have owner := rooted.function_owner opener opens
  rcases rooted.scope_of_titles binds.inside binds.titles with here | ⟨_, here⟩
  · rw [binds.scope] at here
    obtain ⟨below, other⟩ := rooted.function_below binds.inside binds.function
    have listed := rooted.member_of_owner owner below other (here.symm.trans inner.symm)
    exact mem_preorder_of_member listed
  · rw [binds.scope] at here
    have same := rooted.owner_unique (rooted.function_owner binds.inside binds.function) owner
      (here.symm.trans inner.symm)
    rw [same]
    exact f.mem_preorder_self

end Rooted

/-- Identifiers that functions are bound to are definitions. -/
theorem Binds.holds (binds : root.Binds s name i f) : root.Holds name s := by
  cases binds.titles with
  | own held =>
    obtain ⟨child, stands⟩ := child_of_one held
    obtain ⟨expression, own, declarator, form⟩ := function_of_kind binds.function
    have defining : .id ∈ f.kind.definingSlots := by
      rw [kind_of_form form]
      cases expression <;> exact List.mem_cons_self
    exact ⟨i, preorder_closed f binds.inside i child, binds.scope,
      ⟨f, binds.inside, child, .id, defining, stands⟩, binds.spelled⟩
  | @declarator d around kind _ _ held =>
    obtain ⟨child, stands⟩ := child_of_one held
    have defining : .id ∈ d.kind.definingSlots := by
      rw [kind]
      exact List.mem_cons_self
    exact ⟨i, preorder_closed d around i child, binds.scope,
      ⟨d, around, child, .id, defining, stands⟩, binds.spelled⟩

theorem Titles.before (titles : root.Titles i f) (ascending : root.Ascending)
    (filed : ∀ m ∈ root.preorder, m.Filed) : i.id < f.id ∨ i ∈ f.descendants := by
  cases titles with
  | own held => exact .inr (mem_descendants_of_child (child_of_one held).1)
  | @declarator d around kind value stands held =>
    obtain ⟨child, stood⟩ := child_of_one held
    have apart : i ≠ f := by
      rintro rfl
      cases stood.symm.trans stands
    have ordered := (ascending.inside around).children.and (filed d around).ordered
    rcases related_of_pairwise ordered child value apart with ⟨precedes, _⟩ | ⟨_, kept⟩
    · exact .inl (precedes i i.mem_preorder_self f f.mem_preorder_self)
    · exact absurd stood (kept stands)

theorem Binds.not_below_declarator (rooted : root.Rooted) (filed : ∀ m ∈ root.preorder, m.Filed)
    {d : Node} (around : d ∈ root.preorder) (kind : d.kind = .statement .variableDeclarator)
    (single : ∀ nodes, d.content .init ≠ .many nodes) (value : f ∈ d.children)
    (stands : f.head.slot = some .init) (held : d.content .id = .one i)
    (binds : root.Binds s name i f) (function : g.kind.isFunction = true)
    (below : g ∈ d.descendants) : g ∈ f.preorder := by
  obtain ⟨c, child, member⟩ := mem_descendants.mp below
  obtain ⟨slot, known, stood⟩ := (filed d around).slots c child
  rw [kind] at known
  rcases List.mem_cons.mp known with rfl | known
  · obtain rfl := (filed d around).eq_of_one held child stood
    obtain ⟨field, role, _, form, _⟩ := binds.spelled
    have identifier : c.kind = .identifier := kind_of_form form
    have leaf := (rooted.nested c (preorder_closed d around c child)).leaf (by rw [identifier]; rfl)
    rcases mem_preorder.mp member with rfl | member
    · rw [identifier] at function
      cases function
    · rw [descendants, leaf] at member
      cases member
  · rw [List.mem_singleton.mp known] at stood
    cases content : d.content .init with
    | empty =>
      have absurd := (filed d around).filed c child .init stood
      rw [content] at absurd
      cases absurd
    | many nodes => exact absurd content (single nodes)
    | one only =>
      have left := (filed d around).eq_of_one content child stood
      have right := (filed d around).eq_of_one content value stands
      exact (left.trans right.symm) ▸ member

/-- Functions that are bound to one name in a scope that none of them opens come in the order of the
identifiers, where declarators have one value each. -/
theorem Binds.id_lt (rooted : root.Rooted) (ascending : root.Ascending)
    (filed : ∀ m ∈ root.preorder, m.Filed)
    (single : ∀ d ∈ root.preorder, d.kind = .statement .variableDeclarator →
      ∀ nodes, d.content .init ≠ .many nodes)
    (first : root.Binds s name j g) (second : root.Binds s name i f) (outer : g.head.inner ≠ s)
    (before : g.id < f.id) : j.id < i.id := by
  have apart : f ∉ g.descendants := fun below => outer (rooted.inner_of_around first second below)
  have early : ∀ n : Node, g.Precedes n → j.id < n.id := by
    intro n precedes
    have own := precedes g g.mem_preorder_self n n.mem_preorder_self
    rcases first.titles.before ascending filed with earlier | child
    · exact Nat.lt_trans earlier own
    · exact precedes j (mem_preorder.mpr (.inr child)) n n.mem_preorder_self
  cases second.titles with
  | own held =>
    have child := mem_descendants_of_child (child_of_one held).1
    have later := (ascending.inside second.inside).below i child
    rcases ascending.apart first.inside second.inside before with below | precedes
    · exact absurd below apart
    · exact Nat.lt_trans (early f precedes) later
  | @declarator d around kind value stands held =>
    have child := mem_descendants_of_child (child_of_one held).1
    refine Nat.lt_trans (early d ?_) ((ascending.inside around).below i child)
    have outside : g ∉ d.descendants := by
      intro below
      have inside := second.not_below_declarator rooted filed around kind (single d around kind)
        value stands held first.function below
      rcases mem_preorder.mp inside with rfl | inside
      · exact absurd before (Nat.lt_irrefl _)
      · exact absurd before (Nat.lt_asymm ((ascending.inside second.inside).below g inside))
    have other : d ≠ g := by
      rintro rfl
      have function := first.function
      rw [kind] at function
      cases function
    rcases related_of_pairwise ascending around first.inside other with earlier | later
    · rcases ascending.apart around first.inside earlier with below | precedes
      · exact absurd below outside
      · have follows := precedes f (mem_preorder.mpr (.inr (mem_descendants_of_child value))) g
          g.mem_preorder_self
        exact absurd before (Nat.lt_asymm follows)
    · rcases ascending.apart first.inside around later with below | precedes
      · exact absurd (descendants_trans (mem_preorder.mpr (.inr (mem_descendants_of_child value)))
          below) apart
      · exact precedes

end Node

def Scopes.functionAt (scopes : Scopes) (s : ScopeId) (name : Name) : Option NodeId :=
  scopes.entryAt Scope.functions s name

namespace Program

theorem enterFunction_eq (scopes : Scopes) (n : Node) :
    enterFunction scopes n = n.form.bindings.foldl
      (fun scopes b => scopes.modify b.scope (Scope.bind b.name n.id)) scopes := by
  unfold enterFunction
  cases n.form <;> rfl

theorem enterFunction_size (scopes : Scopes) (n : Node) :
    (enterFunction scopes n).size = scopes.size := by
  rw [enterFunction_eq]
  exact foldl_keeps Array.size _ (fun scopes b => Array.size_modify) _ scopes

theorem functionAt_enterFunction (scopes : Scopes) (n : Node) {s : ScopeId}
    (inside : s < scopes.size) (name : Name) : (enterFunction scopes n).functionAt s name =
      if n.isBound s name then some n.id else scopes.functionAt s name := by
  rw [enterFunction_eq]
  unfold Node.isBound
  induction n.form.bindings generalizing scopes with
  | nil => rfl
  | cons b bindings ih =>
    have bound : Scopes.functionAt (Array.modify scopes b.scope (Scope.bind b.name n.id)) s name =
        if b.scope = s ∧ b.name.key = name.key then some n.id else scopes.functionAt s name :=
      scopes.entryAt_put Scope.functions b.scope inside b.name name n.id fun _ => rfl
    rw [List.foldl_cons, ih _ (by rw [Array.size_modify]; exact inside), List.any_cons, bound]
    by_cases here : b.scope = s ∧ b.name.key = name.key
    · simp [here]
    · have other : (decide (b.scope = s) && decide (b.name.key = name.key)) = false := by
        simpa using here
      rw [if_neg here, other, Bool.false_or]

theorem functionAt_openedScopes (bound : Int) (root : Node) (s : ScopeId) (name : Name) :
    (openedScopes bound root).functionAt s name = none := by
  have unbound : ∀ nodes : List Node, ∀ scopes : Scopes, scopes.functionAt s name = none →
      Scopes.functionAt (nodes.foldl (openScope bound) scopes) s name = none := by
    intro nodes
    induction nodes with
    | nil => exact fun scopes none => none
    | cons n nodes ih =>
      intro scopes none
      refine ih _ ?_
      rw [openScope_eq]
      split
      · unfold Scopes.functionAt Scopes.entryAt
        rw [Array.getElem?_push]
        split
        · rfl
        · exact none
      · exact none
  refine unbound root.preorder _ ?_
  match s with
  | 0 => rfl
  | _ + 1 => rfl

/-- A name is bound to the last function, children first, that is bound to it. -/
theorem scopesOf_functionAt (bound : Int) (root : Node) {s : ScopeId}
    (inside : s < (scopesOf bound root).size) (name : Name) :
    (scopesOf bound root).functionAt s name =
      (root.postorder.reverse.find? (Node.isBound s name)).map Node.id := by
  have size : (root.preorder.foldl enterName (openedScopes bound root)).size =
      (openedScopes bound root).size := foldl_keeps Array.size enterName enterName_size _ _
  have unbound : Scopes.functionAt (root.preorder.foldl enterName (openedScopes bound root)) s name =
      none := by
    rw [foldl_keeps (Scopes.functionAt · s name) enterName ?_ root.preorder,
      functionAt_openedScopes bound root s name]
    intro scopes n
    unfold enterName
    split
    · split
      · exact scopes.entryAt_modify Scope.functions _ s name fun _ => rfl
      · rfl
    · rfl
  rw [scopesOf_size, ← size] at inside
  exact foldl_last (Scopes.functionAt · s name) enterFunction (Node.isBound s name) enterFunction_size
    (fun scopes n inside => functionAt_enterFunction scopes n inside name) root.postorder inside
    unbound

variable {p : Program}

/-- What holds of the functions of a program that was read. -/
structure Named (p : Program) : Prop where
  rooted : p.root.Rooted
  ascending : p.root.Ascending
  filed : ∀ n ∈ p.root.preorder, n.Filed
  isBound : ∀ n ∈ p.root.preorder, ∀ s name,
    n.isBound s name = true ↔ ∃ i, p.root.Binds s name i n
  functionAt : ∀ s < p.scopes.size, ∀ name, p.scopes.functionAt s name =
    (p.root.postorder.reverse.find? (Node.isBound s name)).map Node.id

theorem numbers_of_ofJson {settings : Settings} {tree : Json}
    (accepted : ofJson settings tree = .ok p) :
    p.root.preorder.map Node.id = List.range p.nodeCount := by
  obtain ⟨root, read, rfl⟩ := ofJson_eq_ok accepted
  obtain ⟨_, last, numbered⟩ := Node.ofJson_numbered read
  have ids := numbered.ids
  rw [show Node.preorderAll [root] = root.preorder from List.append_nil _] at ids
  rw [List.range_eq_range']
  exact ids

theorem ascending_of_ofJson {settings : Settings} {tree : Json}
    (accepted : ofJson settings tree = .ok p) : p.root.Ascending := by
  have sorted : (p.root.preorder.map Node.id).Pairwise (· < ·) := by
    rw [numbers_of_ofJson accepted]
    exact List.pairwise_lt_range
  exact List.pairwise_map.mp sorted

theorem kept_of_ofJson {settings : Settings} {tree : Json}
    (accepted : ofJson settings tree = .ok p) :
    ∀ n ∈ p.root.preorder, n.Filed ∧ n.Defined ∧ n.Linked := by
  obtain ⟨root, read, rfl⟩ := ofJson_eq_ok accepted
  intro n member
  obtain ⟨filed, defined⟩ := Node.kept_of_ofJson read n member
  exact ⟨filed, defined, Node.linked_of_ofJson read n member⟩

/-- What a function is bound to is declared in the scope of the binding, which is the one that the
function belongs to or, for a function expression, the one that it opens. -/
theorem scope_of_binding {settings : Settings} {tree : Json} (accepted : ofJson settings tree = .ok p)
    {f : Node} (inside : f ∈ p.root.preorder) {b : Binding} (bound : b ∈ f.form.bindings) :
    p.scopes.declares b.name b.scope = true ∧ (b.scope = f.head.scope ∨
      f.kind = .functionExpression ∧ b.scope = f.head.inner) := by
  have formed := wellFormed_of_ofJson accepted
  have rooted := rooted_of_ofJson accepted
  have kept := kept_of_ofJson accepted
  obtain ⟨function, i, field, role, titles, form, named, scope⟩ :=
    (Node.mem_bindings_iff formed.placed (fun m member => (kept m member).2.2) rooted.kind inside
      b).mp bound
  constructor
  · have binds : p.root.Binds b.scope b.name i f :=
      ⟨inside, function, titles, scope, field, role, b.name, form, named, rfl⟩
    exact ((entered_of_ofJson accepted).declares_iff formed b.scope b.name).mpr binds.holds
  · rw [← scope]
    refine (rooted.scope_of_titles inside titles).imp_right fun ⟨undeclared, opened⟩ => ⟨?_, opened⟩
    obtain ⟨expression, own, declarator, shape⟩ := Node.function_of_kind function
    rw [Node.kind_of_form shape] at undeclared ⊢
    cases expression with
    | true => rfl
    | false => exact absurd rfl undeclared

theorem named_of_ofJson {settings : Settings} {tree : Json}
    (accepted : ofJson settings tree = .ok p) : p.Named := by
  have formed := wellFormed_of_ofJson accepted
  have rooted := rooted_of_ofJson accepted
  have kept := kept_of_ofJson accepted
  refine ⟨rooted, ascending_of_ofJson accepted, fun n inside => (kept n inside).1, ?_, ?_⟩
  · intro n inside s name
    exact Node.isBound_iff_binds formed.placed (fun m member => (kept m member).2.2) rooted.kind inside
  · obtain ⟨root, read, rfl⟩ := ofJson_eq_ok accepted
    intro s inside name
    exact scopesOf_functionAt settings.maxDepth root inside name

namespace Named

variable {s : ScopeId} {name : Name} {i f : Node}

theorem found (named : p.Named) (inside : s < p.scopes.size) (id : NodeId) :
    p.scopes.functionAt s name = some id ↔ ∃ i f, p.root.Binds s name i f ∧ f.id = id ∧
      ∀ j g, p.root.Binds s name j g → g = f ∨ f ∉ g.preorder ∧ (g ∈ f.descendants ∨ g.id < f.id) := by
  have member : ∀ n ∈ p.root.postorder, n ∈ p.root.preorder := fun n listed =>
    p.root.postorder_perm.mem_iff.mp listed
  have ordered := named.ascending.postorder
  rw [named.functionAt s inside name, Option.map_eq_some_iff]
  constructor
  · rintro ⟨f, found, rfl⟩
    obtain ⟨before, after, order, bound, later⟩ := find?_reverse_eq_some_iff.mp found
    rw [order] at member ordered
    obtain ⟨i, binds⟩ := (named.isBound f (member f (by simp)) s name).mp bound
    refine ⟨i, f, binds, rfl, ?_⟩
    intro j g also
    have listed : g ∈ before ++ f :: after := by
      rw [← order]
      exact p.root.postorder_perm.mem_iff.mpr also.inside
    rcases List.mem_append.mp listed with earlier | follows
    · exact .inr ((List.pairwise_append.mp ordered).2.2 g earlier f List.mem_cons_self)
    · rcases List.mem_cons.mp follows with same | follows
      · exact .inl same
      · exact absurd ((named.isBound g also.inside s name).mpr ⟨j, also⟩) (later g follows)
  · rintro ⟨i, f, binds, rfl, last⟩
    refine ⟨f, ?_, rfl⟩
    have listed := p.root.postorder_perm.mem_iff.mpr binds.inside
    obtain ⟨before, after, order⟩ := List.append_of_mem listed
    refine find?_reverse_eq_some_iff.mpr ⟨before, after, order, ?_, ?_⟩
    · exact (named.isBound f binds.inside s name).mpr ⟨i, binds⟩
    · intro g follows bound
      rw [order] at member ordered
      have inside := member g (List.mem_append_right _ (List.mem_cons_of_mem _ follows))
      obtain ⟨j, also⟩ := (named.isBound g inside s name).mp bound
      obtain ⟨outside, precedes⟩ :=
        (List.pairwise_cons.mp (List.pairwise_append.mp ordered).2.1).1 g follows
      rcases last j g also with rfl | ⟨apart, follows⟩
      · exact outside g.mem_preorder_self
      · rcases precedes with below | smaller
        · exact apart (Node.mem_preorder.mpr (.inr below))
        · rcases follows with below | greater
          · exact outside (Node.mem_preorder.mpr (.inr below))
          · exact absurd smaller (Nat.lt_asymm greater)

theorem isSome_functionAt (named : p.Named) (inside : s < p.scopes.size) :
    (p.scopes.functionAt s name).isSome = true ↔ ∃ i f, p.root.Binds s name i f := by
  rw [named.functionAt s inside name, Option.isSome_map, List.find?_isSome]
  constructor
  · rintro ⟨f, listed, bound⟩
    have member := p.root.postorder_perm.mem_iff.mp (List.mem_reverse.mp listed)
    obtain ⟨i, binds⟩ := (named.isBound f member s name).mp bound
    exact ⟨i, f, binds⟩
  · rintro ⟨i, f, binds⟩
    refine ⟨f, List.mem_reverse.mpr (p.root.postorder_perm.mem_iff.mpr binds.inside), ?_⟩
    exact (named.isBound f binds.inside s name).mpr ⟨i, binds⟩

/-- In the scope that a function opens, all other functions stand below it and are bound before. -/
theorem functionAt_own (named : p.Named) (inside : s < p.scopes.size)
    (binds : p.root.Binds s name i f) (opens : f.head.inner = s) :
    p.scopes.functionAt s name = some f.id := by
  refine (named.found inside f.id).mpr ⟨i, f, binds, rfl, ?_⟩
  intro j g also
  have within := named.rooted.inside_of_inner binds.inside binds.function opens also
  rcases Node.mem_preorder.mp within with same | below
  · exact .inl same
  · by_cases around : f ∈ g.preorder
    · exact .inl (Node.preorder_antisymm within around)
    · exact .inr ⟨around, .inl below⟩

/-- Elsewhere no function stands below another that is bound to the name, so that children first and
preorder agree on which is the last. -/
theorem functionAt_last (named : p.Named) (formed : p.WellFormed) (inside : s < p.scopes.size)
    (outer : ∀ i f, p.root.Binds s name i f → f.head.inner ≠ s) (id : NodeId) :
    p.scopes.functionAt s name = some id ↔ ∃ i f, p.root.Binds s name i f ∧ f.id = id ∧
      ∀ j g, p.root.Binds s name j g → g.id ≤ f.id := by
  rw [named.found inside id]
  constructor
  · rintro ⟨i, f, binds, same, others⟩
    refine ⟨i, f, binds, same, ?_⟩
    intro j g also
    rcases others j g also with rfl | ⟨_, below | smaller⟩
    · exact Nat.le_refl _
    · exact absurd (named.rooted.inner_of_around binds also below) (outer i f binds)
    · exact Nat.le_of_lt smaller
  · rintro ⟨i, f, binds, same, greatest⟩
    refine ⟨i, f, binds, same, ?_⟩
    intro j g also
    by_cases equal : g.id = f.id
    · exact .inl (formed.eq_of_id also.inside binds.inside equal)
    · refine .inr ⟨?_, .inr (Nat.lt_of_le_of_ne (greatest j g also) equal)⟩
      intro around
      rcases Node.mem_preorder.mp around with rfl | below
      · exact equal rfl
      · exact outer j g also (named.rooted.inner_of_around also binds below)

end Named

/-- How functions are bound in a program. -/
structure Bound (p : Program) : Prop where
  numbered : p.root.preorder.map Node.id = List.range p.nodeCount
  mapped : ∀ s scope, p.scopes[s]? = some scope → ∀ name,
    (Table.get? scope.functions name).isSome = true ↔ ∃ i f, p.root.Binds s name i f
  /-- A function that is bound in the scope that it opens keeps the name. -/
  own : ∀ s scope, p.scopes[s]? = some scope → ∀ name i f, p.root.Binds s name i f →
    f.head.inner = s → Table.get? scope.functions name = some f.id
  /-- Any other name goes to the last function that is bound to it. -/
  last : ∀ s scope, p.scopes[s]? = some scope → ∀ name,
    (∀ i f, p.root.Binds s name i f → f.head.inner ≠ s) → ∀ id,
      Table.get? scope.functions name = some id ↔ ∃ i f, p.root.Binds s name i f ∧ f.id = id ∧
        ∀ j g, p.root.Binds s name j g → g.id ≤ f.id
  ordered : (∀ d ∈ p.root.preorder, d.kind = .statement .variableDeclarator →
      ∀ nodes, d.content .init ≠ .many nodes) →
    ∀ s name, (∀ i f, p.root.Binds s name i f → f.head.inner ≠ s) →
      ∀ i f j g, p.root.Binds s name i f → p.root.Binds s name j g → g.id < f.id → j.id < i.id

theorem bound_of_ofJson {settings : Settings} {tree : Json}
    (accepted : ofJson settings tree = .ok p) : p.Bound := by
  have named := named_of_ofJson accepted
  have entry : ∀ s scope, p.scopes[s]? = some scope → s < p.scopes.size ∧
      ∀ name, Table.get? scope.functions name = p.scopes.functionAt s name :=
    fun s scope found => ⟨(Array.getElem?_eq_some_iff.mp found).1, fun name =>
      (Scopes.entryAt_eq Scope.functions found name).symm⟩
  constructor
  case numbered => exact numbers_of_ofJson accepted
  case mapped =>
    intro s scope found name
    obtain ⟨inside, looked⟩ := entry s scope found
    rw [looked]
    exact named.isSome_functionAt inside
  case own =>
    intro s scope found name i f binds opens
    obtain ⟨inside, looked⟩ := entry s scope found
    rw [looked]
    exact named.functionAt_own inside binds opens
  case last =>
    intro s scope found name outer id
    obtain ⟨inside, looked⟩ := entry s scope found
    rw [looked]
    exact named.functionAt_last (wellFormed_of_ofJson accepted) inside outer id
  case ordered =>
    intro single s name outer i f j g binds also before
    exact also.id_lt named.rooted named.ascending named.filed single binds (outer j g also) before

open Raw in
/-- In `function f() {} var f = function () {}; (function n() { function n() {} });` the program binds
`f` to the closure, and the last function but one keeps its own name. -/
def rebinding : Json :=
  program [
    function "f" [],
    declaration "f" (closure []),
    expression (node "FunctionExpression" [("id", identifier "n"), ("params", .list []),
      ("body", node "BlockStatement" [("body", .list [function "n" []])])])]

theorem rebinding_bound : ∃ p, ofJson .standard rebinding = .ok p ∧
    p.scopes.functionAt 0 (.text "f") = some 7 ∧ p.scopes.functionAt 3 (.text "n") = some 10 ∧
    p.Bound := by
  have read : ∃ p, ofJson .standard rebinding = .ok p ∧
      p.scopes.functionAt 0 (.text "f") = some 7 ∧ p.scopes.functionAt 3 (.text "n") = some 10 := by
    decide +kernel
  obtain ⟨p, accepted, declared, own⟩ := read
  exact ⟨p, accepted, declared, own, bound_of_ofJson accepted⟩

open Raw in
/-- In `(function n() { function n() {} });` both functions are bound to `n` in one scope. -/
def selfNamed : Json :=
  program [expression (node "FunctionExpression" [("id", identifier "n"), ("params", .list []),
    ("body", node "BlockStatement" [("body", .list [function "n" []])])])]

/-- A name need not be bound to the function whose identifier comes last. -/
theorem last_identifier_may_lose :
    ¬ ∀ settings tree p, ofJson settings tree = .ok p → ∀ s scope, p.scopes[s]? = some scope →
      ∀ name id, Table.get? scope.functions name = some id →
        ∃ i f, p.root.Binds s name i f ∧ f.id = id ∧
          ∀ j g, p.root.Binds s name j g → j.id ≤ i.id := by
  intro last
  have read : ∃ p, ofJson .standard selfNamed = .ok p ∧
      p.scopes.functionAt 1 (.text "n") = some 2 ∧
      (∀ d ∈ p.root.preorder, d.kind ≠ .statement .variableDeclarator) ∧
      (∀ f ∈ p.root.preorder, f.id = 2 → ∃ i, f.content .id = .one i ∧ i.id = 3) ∧
      ∃ g ∈ p.root.preorder, g.isBound 1 (.text "n") = true ∧
        ∃ j, g.content .id = .one j ∧ j.id = 6 := by
    decide +kernel
  obtain ⟨p, accepted, bound, plain, first, g, member, also, j, held, sixth⟩ := read
  have own : ∀ i f, p.root.Titles i f → f.content .id = .one i := by
    intro i f titles
    cases titles with
    | own held => exact held
    | declarator inside kind => exact absurd kind (plain _ inside)
  obtain ⟨scope, found, looked⟩ := Option.bind_eq_some_iff.mp bound
  obtain ⟨i, f, binds, second, greatest⟩ := last _ _ p accepted 1 scope found _ _ looked
  obtain ⟨i', held', third⟩ := first f binds.inside second
  obtain rfl := Content.one.inj ((own i f binds.titles).symm.trans held')
  obtain ⟨j', binds'⟩ := ((named_of_ofJson accepted).isBound g member _ _).mp also
  obtain rfl := Content.one.inj ((own j' g binds'.titles).symm.trans held)
  have le := greatest j' g binds'
  rw [third, sixth] at le
  exact absurd le (by decide)

end Program

end ScriptTypes
