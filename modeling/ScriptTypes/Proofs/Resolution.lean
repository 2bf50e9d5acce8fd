import ScriptTypes.Proofs.Candidates.Table
import ScriptTypes.Proofs.Members

/-! A scope declares the names that are defined in it, wherever in the tree that is, and a name that
is used belongs to the innermost scope around its use that declares it, or else to the program's.
The scopes around a use are those of the functions around it, so that definitions are found whether
they stand before or after the use. -/

namespace ScriptTypes

namespace Node

/-- The node defines the name in the scope: it is an identifier of that name in a slot of its parent
that holds definitions. -/
structure Defines (root : Node) (s : ScopeId) (name : Name) (n : Node) : Prop where
  scope : n.head.scope = s
  slot : ∃ parent ∈ root.preorder, n ∈ parent.children ∧
    ∃ slot ∈ parent.kind.definingSlots, n.head.slot = some slot
  spelled : ∃ field role spelled, n.form = .identifier field role ∧
    Name.ofField field = .ok spelled ∧ spelled.key = name.key

def Holds (root : Node) (name : Name) (s : ScopeId) : Prop :=
  ∃ n ∈ root.preorder, root.Defines s name n

/-- The scopes from this one outward: that of a function lies in the scope that the function belongs
to, and the program's in none. -/
inductive Outward (root : Node) : ScopeId → List ScopeId → Prop where
  | program : Outward root 0 [0]
  | function {f : Node} {s : ScopeId} {outer : List ScopeId} (inside : f ∈ root.preorder)
      (function : f.kind.isFunction = true) (opens : f.head.inner = s)
      (around : Outward root f.head.scope outer) : Outward root s (s :: outer)

/-- The innermost scope of a chain that holds a definition of the name; the program's if none does. -/
def Innermost (root : Node) (name : Name) (chain : List ScopeId) (s : ScopeId) : Prop :=
  (∃ inner outer, chain = inner ++ s :: outer ∧ root.Holds name s ∧ ∀ t ∈ inner, ¬ root.Holds name t) ∨
    s = 0 ∧ ∀ t ∈ chain, ¬ root.Holds name t

namespace Outward

variable {root : Node} {s : ScopeId} {chain other : List ScopeId}

theorem getLast? (outward : root.Outward s chain) : chain.getLast? = some 0 := by
  induction outward with
  | program => rfl
  | function _ _ _ _ ih => rw [List.getLast?_cons, ih, Option.getD_some]

theorem unique (rooted : root.Rooted) (outward : root.Outward s chain)
    (again : root.Outward s other) : other = chain := by
  have positive : ∀ f ∈ root.preorder, f.kind.isFunction = true → f.head.inner ≠ 0 := by
    intro f inside function none
    have opened := (rooted.nested f inside).opens function
    rw [none] at opened
    exact Nat.not_lt_zero _ opened
  induction outward generalizing other with
  | program =>
    cases again with
    | program => rfl
    | function inside function opens => exact absurd opens (positive _ inside function)
  | @function f s outer inside function opens around ih =>
    cases again with
    | program => exact absurd opens (positive f inside function)
    | @function g _ outer' inside' function' opens' around' =>
      have same := rooted.owner_unique (rooted.function_owner inside' function')
        (rooted.function_owner inside function) (opens'.trans opens.symm)
      have rest : outer' = outer := ih (same ▸ around')
      rw [rest]

end Outward

/-- The functions of a tree open scopes in turn, after the program's. -/
theorem Rooted.turns {root : Node} (rooted : root.Rooted) :
    (root.preorder.filter (·.kind.isFunction)).map (·.head.inner) =
      List.range' 1 (root.preorder.filter (·.kind.isFunction)).length := by
  have plain : ¬ root.kind.isFunction = true := by rw [rooted.kind]; exact Bool.false_ne_true
  have inners := rooted.inners
  rw [scopeOwners, List.map_cons, List.length_cons, List.range_eq_range', List.range'_succ] at inners
  rw [preorder_eq, List.filter_cons, if_neg plain]
  exact (List.cons.inj inners).2

def enters (s : ScopeId) (name : Name) (n : Node) : Bool :=
  match n.form with
  | .identifier field .definition =>
    match Name.ofField field with
    | .ok spelled => n.head.scope = s && spelled.key = name.key
    | .error _ => false
  | _ => false

theorem enters_iff {s : ScopeId} {name : Name} {n : Node} : n.enters s name = true ↔
    n.head.scope = s ∧ ∃ field spelled, n.form = .identifier field .definition ∧
      Name.ofField field = .ok spelled ∧ spelled.key = name.key := by
  unfold enters
  split
  · next field form =>
    split
    · next spelled named => simp [form, named]
    · next named => simp [form, named]
  · next other =>
    simp only [Bool.false_eq_true, false_iff]
    rintro ⟨_, field, _, form, _⟩
    exact other field form

theorem exists_parent {n r : Node} (below : n ∈ r.descendants) :
    ∃ parent ∈ r.preorder, n ∈ parent.children := by
  induction r using children_induction with
  | step r ih =>
    obtain ⟨c, child, inside⟩ := mem_descendants.mp below
    rcases mem_preorder.mp inside with rfl | deeper
    · exact ⟨r, r.mem_preorder_self, child⟩
    · obtain ⟨parent, member, held⟩ := ih c child deeper
      exact ⟨parent, mem_preorder.mpr (.inr (mem_descendants.mpr ⟨c, child, member⟩)), held⟩

/-- What is entered is what stands in a slot for definitions. -/
theorem enters_iff_defines {root n : Node} (linked : ∀ m ∈ root.preorder, m.Linked)
    (kind : root.kind = .statement .program) (inside : n ∈ root.preorder) {s : ScopeId}
    {name : Name} : n.enters s name = true ↔ root.Defines s name n := by
  rw [enters_iff]
  constructor
  · rintro ⟨scope, field, spelled, form, named, same⟩
    refine ⟨scope, ?_, field, .definition, spelled, form, named, same⟩
    rcases mem_preorder.mp inside with rfl | below
    · change n.form.kind = _ at kind
      rw [form] at kind
      cases kind
    · obtain ⟨parent, member, child⟩ := exists_parent below
      obtain ⟨slot, fits⟩ := linked parent member n child
      refine ⟨parent, member, child, slot, ?_, fits.slot⟩
      exact (parent.kind.role_eq_definition_iff _ slot).mp (fits.role field _ form).symm
  · rintro ⟨scope, ⟨parent, member, child, slot, defining, stands⟩, field, role, spelled, form, named,
      same⟩
    obtain ⟨actual, fits⟩ := linked parent member n child
    cases fits.slot.symm.trans stands
    have defines := (parent.kind.role_eq_definition_iff parent.head.isComputed slot).mpr defining
    rw [fits.role field role form, defines] at form
    exact ⟨scope, field, spelled, form, named, same⟩

end Node

namespace Scopes

variable {change : Scope → Scope}

def entryAt (table : Scope → Table NodeId) (scopes : Scopes) (s : ScopeId) (name : Name) :
    Option NodeId :=
  scopes[s]?.bind fun scope => Table.get? (table scope) name

theorem entryAt_eq (table : Scope → Table NodeId) {scopes : Scopes} {s : ScopeId} {scope : Scope}
    (found : scopes[s]? = some scope) (name : Name) :
    scopes.entryAt table s name = Table.get? (table scope) name := by
  unfold entryAt
  rw [found]
  rfl

def declaredAt (scopes : Scopes) (s : ScopeId) (name : Name) : Option NodeId :=
  scopes.entryAt Scope.declared s name

theorem declares_eq (scopes : Scopes) (name : Name) (s : ScopeId) :
    scopes.declares name s = (scopes.declaredAt s name).isSome := by
  unfold declares declaredAt entryAt
  cases scopes[s]? <;> rfl

theorem chain_modify (scopes : Scopes) (s t : ScopeId)
    (same : ∀ scope, (change scope).outer = scope.outer) :
    chain (Array.modify scopes s change) t = scopes.chain t := by
  unfold chain
  rw [Array.getElem?_modify]
  by_cases here : s = t
  · rw [if_pos here]
    cases scopes[t]? with
    | none => rfl
    | some scope => exact congrArg (t :: ·) (same scope)
  · rw [if_neg here]

theorem entryAt_modify (table : Scope → Table NodeId) (scopes : Scopes) (s t : ScopeId) (name : Name)
    (same : ∀ scope, table (change scope) = table scope) :
    entryAt table (Array.modify scopes s change) t name = entryAt table scopes t name := by
  unfold entryAt
  rw [Array.getElem?_modify]
  by_cases here : s = t
  · rw [if_pos here]
    cases scopes[t]? with
    | none => rfl
    | some scope => exact congrArg (Table.get? · name) (same scope)
  · rw [if_neg here]

theorem entryAt_put (table : Scope → Table NodeId) (scopes : Scopes) (t : ScopeId) {s : ScopeId}
    (inside : s < scopes.size) (spelled name : Name) (node : NodeId)
    (puts : ∀ scope, table (change scope) = Table.put spelled node (table scope)) :
    entryAt table (Array.modify scopes t change) s name =
      if t = s ∧ spelled.key = name.key then some node else entryAt table scopes s name := by
  unfold entryAt
  rw [Array.getElem?_modify, Array.getElem?_eq_getElem inside]
  by_cases here : t = s
  · rw [if_pos here]
    change Table.get? (table (change _)) name = _
    rw [puts, Table.get?_put]
    simp only [here, true_and, @eq_comm _ spelled.key]
    rfl
  · rw [if_neg here, if_neg fun both => here both.1]

theorem declaredAt_modify (scopes : Scopes) (s t : ScopeId) (name : Name)
    (same : ∀ scope, (change scope).declared = scope.declared) :
    declaredAt (Array.modify scopes s change) t name = scopes.declaredAt t name :=
  entryAt_modify Scope.declared scopes s t name same

theorem declaredAt_declare (scopes : Scopes) (t : ScopeId) {s : ScopeId} (inside : s < scopes.size)
    (spelled name : Name) (node : NodeId) :
    declaredAt (Array.modify scopes t (Scope.declare spelled node)) s name =
      if t = s ∧ spelled.key = name.key then some node else scopes.declaredAt s name :=
  entryAt_put Scope.declared scopes t inside spelled name node fun _ => rfl

theorem chain_push (scopes : Scopes) (scope : Scope) (s : ScopeId) :
    chain (Array.push scopes scope) s =
      if s = scopes.size then s :: scope.outer else scopes.chain s := by
  unfold chain
  rw [Array.getElem?_push]
  by_cases last : s = scopes.size
  · rw [if_pos last, if_pos last]
  · rw [if_neg last, if_neg last]

end Scopes

namespace Program

theorem foldl_keeps {α β : Type} (view : Scopes → β) (step : Scopes → α → Scopes)
    (keeps : ∀ scopes a, view (step scopes a) = view scopes) (items : List α) (scopes : Scopes) :
    view (items.foldl step scopes) = view scopes := by
  induction items generalizing scopes with
  | nil => rfl
  | cons a items ih => rw [List.foldl_cons, ih, keeps]

/-- The scopes opened so far know the scopes around them and declare nothing. -/
structure Opened (root : Node) (scopes : Scopes) : Prop where
  outward : ∀ s < scopes.size, root.Outward s (scopes.chain s)
  blank : ∀ s name, scopes.declaredAt s name = none

theorem Opened.push {root f : Node} {scopes : Scopes} (opened : Opened root scopes)
    (inside : f ∈ root.preorder) (function : f.kind.isFunction = true)
    (next : f.head.inner = scopes.size) (around : f.head.scope < scopes.size) (owner : String)
    (bound : Int) :
    Opened root (Array.push scopes ⟨owner, scopes.chain f.head.scope, bound, [], []⟩) where
  outward s below := by
    rw [Scopes.chain_push]
    split
    · next last =>
      exact .function inside function (next.trans last.symm) (opened.outward _ around)
    · next earlier =>
      rw [Array.size_push] at below
      exact opened.outward s (Nat.lt_of_le_of_ne (Nat.le_of_lt_succ below) earlier)
  blank s name := by
    unfold Scopes.declaredAt Scopes.entryAt
    rw [Array.getElem?_push]
    split
    · rfl
    · exact opened.blank s name

/-- Functions open their scopes one after another, each in a scope that is open. -/
theorem openScopes_opened {root : Node} (rooted : root.Rooted) (bound : Int) {nodes : List Node}
    (inside : ∀ n ∈ nodes, n ∈ root.preorder) {scopes : Scopes} (opened : Opened root scopes)
    (turns : (nodes.filter (·.kind.isFunction)).map (·.head.inner) =
      List.range' scopes.size (nodes.filter (·.kind.isFunction)).length) :
    Opened root (nodes.foldl (openScope bound) scopes) := by
  induction nodes generalizing scopes with
  | nil => exact opened
  | cons n nodes ih =>
    have later : ∀ m ∈ nodes, m ∈ root.preorder := fun m member =>
      inside m (List.mem_cons_of_mem _ member)
    rw [List.foldl_cons, openScope_eq]
    rw [List.filter_cons] at turns
    by_cases function : n.kind.isFunction = true
    · rw [if_pos function, List.map_cons, List.length_cons, List.range'_succ] at turns
      obtain ⟨next, rest⟩ := List.cons.inj turns
      have member := inside n List.mem_cons_self
      have around : n.head.scope < scopes.size := next ▸ (rooted.nested n member).opens function
      rw [if_pos function]
      refine ih later (opened.push member function next around _ bound) ?_
      rw [Array.size_push]
      exact rest
    · rw [if_neg function] at turns ⊢
      exact ih later opened turns

theorem enterName_chain (scopes : Scopes) (n : Node) (s : ScopeId) :
    (enterName scopes n).chain s = scopes.chain s := by
  unfold enterName
  split
  · split
    · exact scopes.chain_modify _ s fun _ => rfl
    · rfl
  · rfl

/-- Entering a node declares what it defines and leaves all else as it was. -/
theorem declaredAt_enterName (scopes : Scopes) (n : Node) {s : ScopeId} (inside : s < scopes.size)
    (name : Name) : (enterName scopes n).declaredAt s name =
      if n.enters s name then some n.id else scopes.declaredAt s name := by
  by_cases enters : n.enters s name = true
  · obtain ⟨scope, field, spelled, form, named, same⟩ := Node.enters_iff.mp enters
    unfold enterName
    simp only [form, named]
    rw [Scopes.declaredAt_declare _ _ inside, if_pos ⟨scope, same⟩, if_pos enters]
  · rw [if_neg enters]
    unfold enterName
    split
    · next field form =>
      split
      · next spelled named =>
        rw [Scopes.declaredAt_declare _ _ inside, if_neg]
        rintro ⟨scope, same⟩
        exact enters (Node.enters_iff.mpr ⟨scope, field, spelled, form, named, same⟩)
      · rfl
    · rfl

/-- What one node enters over all that came before it, the last such node has entered at the end. -/
theorem foldl_last (view : Scopes → Option NodeId) (step : Scopes → Node → Scopes)
    (enters : Node → Bool) {s : ScopeId}
    (size : ∀ scopes n, (step scopes n).size = scopes.size)
    (wins : ∀ scopes n, s < scopes.size →
      view (step scopes n) = if enters n then some n.id else view scopes)
    (nodes : List Node) {scopes : Scopes} (inside : s < scopes.size) (blank : view scopes = none) :
    view (nodes.foldl step scopes) = (nodes.reverse.find? enters).map Node.id := by
  induction nodes using List.reverseRecOn with
  | nil => exact blank
  | append_singleton nodes n ih =>
    have grown : s < (nodes.foldl step scopes).size := by
      rw [foldl_keeps Array.size step size]
      exact inside
    rw [List.foldl_append, List.foldl_cons, List.foldl_nil, wins _ n grown, ih,
      List.reverse_append, List.reverse_singleton, List.singleton_append, List.find?_cons]
    cases enters n <;> rfl

theorem declaredAt_enterNames (nodes : List Node) {scopes : Scopes} {s : ScopeId}
    (inside : s < scopes.size) (name : Name) (blank : scopes.declaredAt s name = none) :
    Scopes.declaredAt (nodes.foldl enterName scopes) s name =
      (nodes.reverse.find? (Node.enters s name)).map Node.id :=
  foldl_last (Scopes.declaredAt · s name) enterName (Node.enters s name) enterName_size
    (fun scopes n inside => declaredAt_enterName scopes n inside name) nodes inside blank

def openedScopes (bound : Int) (root : Node) : Scopes :=
  root.preorder.foldl (openScope bound) #[⟨"Program", [], bound, [], []⟩]

theorem openedScopes_opened {root : Node} (rooted : root.Rooted) (bound : Int) :
    Opened root (openedScopes bound root) := by
  refine openScopes_opened rooted bound (fun n member => member) ⟨?_, ?_⟩ rooted.turns
  · intro s below
    have zero : s = 0 := Nat.lt_one_iff.mp below
    rw [zero]
    exact .program
  · intro s name
    match s with
    | 0 => rfl
    | _ + 1 => rfl

theorem scopesOf_keeps {β : Type} (view : Scopes → β) (bound : Int) (root : Node)
    (keeps : ∀ scopes s name node,
      view (Array.modify scopes s (Scope.bind name node)) = view scopes) :
    view (scopesOf bound root) = view (root.preorder.foldl enterName (openedScopes bound root)) := by
  refine foldl_keeps view enterFunction ?_ root.postorder _
  intro scopes n
  unfold enterFunction
  split
  · exact foldl_keeps view _ (fun scopes (b : Binding) => keeps scopes b.scope b.name n.id) _ scopes
  · rfl

theorem scopesOf_chain (bound : Int) (root : Node) (s : ScopeId) :
    (scopesOf bound root).chain s = (openedScopes bound root).chain s := by
  rw [scopesOf_keeps (Scopes.chain · s) bound root
    fun scopes t _ _ => Scopes.chain_modify scopes t s fun _ => rfl]
  exact foldl_keeps (Scopes.chain · s) enterName (enterName_chain · · s) _ _

theorem scopesOf_size (bound : Int) (root : Node) :
    (scopesOf bound root).size = (openedScopes bound root).size := by
  rw [scopesOf_keeps Array.size bound root fun _ _ _ _ => Array.size_modify]
  exact foldl_keeps Array.size enterName enterName_size _ _

theorem scopesOf_declaredAt {root : Node} (rooted : root.Rooted) (bound : Int) {s : ScopeId}
    (inside : s < (scopesOf bound root).size) (name : Name) :
    (scopesOf bound root).declaredAt s name =
      (root.preorder.reverse.find? (Node.enters s name)).map Node.id := by
  rw [scopesOf_keeps (Scopes.declaredAt · s name) bound root
    fun scopes t _ _ => Scopes.declaredAt_modify scopes t s name fun _ => rfl]
  rw [scopesOf_size] at inside
  exact declaredAt_enterNames _ inside name ((openedScopes_opened rooted bound).blank s name)

variable {p : Program}

/-- What entering has done for a program that was read. -/
structure Entered (p : Program) : Prop where
  outward : ∀ s < p.scopes.size, p.root.Outward s (p.scopes.chain s)
  declaredAt : ∀ s < p.scopes.size, ∀ name, p.scopes.declaredAt s name =
    (p.root.preorder.reverse.find? (Node.enters s name)).map Node.id
  enters : ∀ n ∈ p.root.preorder, ∀ s name, n.enters s name = true ↔ p.root.Defines s name n

theorem entered_of_ofJson {settings : Settings} {tree : Json}
    (accepted : ofJson settings tree = .ok p) : p.Entered := by
  have rooted := rooted_of_ofJson accepted
  obtain ⟨root, read, rfl⟩ := ofJson_eq_ok accepted
  refine ⟨?_, ?_, ?_⟩
  · intro s inside
    change s < (scopesOf _ root).size at inside
    change root.Outward s ((scopesOf _ root).chain s)
    rw [scopesOf_size] at inside
    rw [scopesOf_chain]
    exact (openedScopes_opened rooted _).outward s inside
  · intro s inside name
    exact scopesOf_declaredAt rooted _ inside name
  · intro n inside s name
    exact Node.enters_iff_defines (Node.linked_of_ofJson read) rooted.kind inside

theorem Entered.declares_iff (entered : p.Entered) (formed : p.WellFormed) (s : ScopeId)
    (name : Name) : p.scopes.declares name s = true ↔ p.root.Holds name s := by
  rw [Scopes.declares_eq]
  by_cases inside : s < p.scopes.size
  · rw [entered.declaredAt s inside name, Option.isSome_map, List.find?_isSome]
    constructor
    · rintro ⟨n, member, enters⟩
      have member := List.mem_reverse.mp member
      exact ⟨n, member, (entered.enters n member s name).mp enters⟩
    · rintro ⟨n, member, defines⟩
      exact ⟨n, List.mem_reverse.mpr member, (entered.enters n member s name).mpr defines⟩
  · have absent : p.scopes.declaredAt s name = none := by
      unfold Scopes.declaredAt Scopes.entryAt
      rw [Array.getElem?_eq_none (Nat.le_of_not_lt inside)]
      rfl
    rw [absent]
    simp only [Option.isSome_none, Bool.false_eq_true, false_iff]
    rintro ⟨n, member, defines⟩
    exact inside (defines.scope ▸ (formed.placed n member).scope)

theorem find?_reverse_eq_some_iff {test : Node → Bool} {nodes : List Node} {n : Node} :
    nodes.reverse.find? test = some n ↔ ∃ before after, nodes = before ++ n :: after ∧
      test n = true ∧ ∀ m ∈ after, ¬ test m = true := by
  rw [List.find?_eq_some_iff_append]
  constructor
  · rintro ⟨holds, after, before, split, none⟩
    refine ⟨before.reverse, after.reverse, ?_, holds, ?_⟩
    · rw [← nodes.reverse_reverse, split, List.reverse_append, List.reverse_cons, List.append_assoc]
      rfl
    · intro m member
      simpa using none m (List.mem_reverse.mp member)
  · rintro ⟨before, after, rfl, holds, none⟩
    refine ⟨holds, after.reverse, before.reverse, ?_, ?_⟩
    · rw [List.reverse_append, List.reverse_cons, List.append_assoc]
      rfl
    · intro m member
      simpa using none m (List.mem_reverse.mp member)

/-- The node that declares a name in a scope is the last one that defines it there. -/
theorem Entered.declaredAt_iff (entered : p.Entered) {s : ScopeId} (inside : s < p.scopes.size)
    (name : Name) (id : NodeId) : p.scopes.declaredAt s name = some id ↔
      ∃ before n after, p.root.preorder = before ++ n :: after ∧ n.id = id ∧
        p.root.Defines s name n ∧ ∀ m ∈ after, ¬ p.root.Defines s name m := by
  rw [entered.declaredAt s inside name, Option.map_eq_some_iff]
  constructor
  · rintro ⟨n, found, same⟩
    obtain ⟨before, after, order, enters, later⟩ := find?_reverse_eq_some_iff.mp found
    have inside : ∀ m ∈ n :: after, m ∈ p.root.preorder := fun m member =>
      order ▸ List.mem_append_right before member
    refine ⟨before, n, after, order, same, ?_, ?_⟩
    · exact (entered.enters n (inside n List.mem_cons_self) s name).mp enters
    · intro m member defines
      refine later m member ?_
      exact (entered.enters m (inside m (List.mem_cons_of_mem _ member)) s name).mpr defines
  · rintro ⟨before, n, after, order, same, defines, later⟩
    have inside : ∀ m ∈ n :: after, m ∈ p.root.preorder := fun m member =>
      order ▸ List.mem_append_right before member
    refine ⟨n, find?_reverse_eq_some_iff.mpr ⟨before, after, order, ?_, ?_⟩, same⟩
    · exact (entered.enters n (inside n List.mem_cons_self) s name).mpr defines
    · intro m member enters
      refine later m member ?_
      exact (entered.enters m (inside m (List.mem_cons_of_mem _ member)) s name).mp enters

/-- How names are found in a program. -/
structure Resolved (p : Program) : Prop where
  /-- A function's children belong to the scope that it opens, apart from the name of a declaration;
  other nodes open none. -/
  nested : ∀ n ∈ p.root.preorder, n.Nested
  declared : ∀ s scope, p.scopes[s]? = some scope → ∀ name,
    (Table.get? scope.declared name).isSome = true ↔ p.root.Holds name s
  last : ∀ s scope, p.scopes[s]? = some scope → ∀ name id, Table.get? scope.declared name = some id ↔
    ∃ before n after, p.root.preorder = before ++ n :: after ∧ n.id = id ∧
      p.root.Defines s name n ∧ ∀ m ∈ after, ¬ p.root.Defines s name m
  /-- A name that is used at a node belongs to the innermost scope around the node that defines it. -/
  home : ∀ n ∈ p.root.preorder, ∀ name, ∃ chain, p.root.Outward n.head.scope chain ∧
    (∀ other, p.root.Outward n.head.scope other → other = chain) ∧
    p.root.Innermost name chain (p.scopes.home n.head.scope name)

/-- A name belongs to the innermost scope that declares it. -/
theorem Entered.innermost_home (entered : p.Entered) (formed : p.WellFormed) {s : ScopeId}
    (inside : s < p.scopes.size) (name : Name) :
    p.root.Innermost name (p.scopes.chain s) (p.scopes.home s name) := by
  unfold Scopes.home
  cases found : (p.scopes.chain s).find? (p.scopes.declares name) with
  | some t =>
    obtain ⟨declared, inner, outer, split, none⟩ := List.find?_eq_some_iff_append.mp found
    refine .inl ⟨inner, outer, split, (entered.declares_iff formed t name).mp declared, ?_⟩
    intro u member holds
    have refused := none u member
    rw [(entered.declares_iff formed u name).mpr holds] at refused
    cases refused
  | none =>
    refine .inr ⟨?_, ?_⟩
    · change (p.scopes.chain s).getLastD s = 0
      rw [List.getLastD_eq_getLast?, (entered.outward s inside).getLast?]
      rfl
    · intro t member holds
      exact List.find?_eq_none.mp found t member ((entered.declares_iff formed t name).mpr holds)

/-- Names are resolved in every program that was read. -/
theorem resolved_of_ofJson {settings : Settings} {tree : Json}
    (accepted : ofJson settings tree = .ok p) : p.Resolved := by
  have formed := wellFormed_of_ofJson accepted
  have rooted := rooted_of_ofJson accepted
  have entered := entered_of_ofJson accepted
  have entry : ∀ s scope, p.scopes[s]? = some scope → ∀ name,
      Table.get? scope.declared name = p.scopes.declaredAt s name := fun s scope found name =>
    (Scopes.entryAt_eq Scope.declared found name).symm
  refine ⟨rooted.nested, ?_, ?_, ?_⟩
  · intro s scope found name
    rw [entry s scope found, ← Scopes.declares_eq]
    exact entered.declares_iff formed s name
  · intro s scope found name id
    rw [entry s scope found]
    exact entered.declaredAt_iff (Array.getElem?_eq_some_iff.mp found).1 name id
  · intro n member name
    have inside := (formed.placed n member).scope
    have outward := entered.outward n.head.scope inside
    exact ⟨_, outward, fun other again => outward.unique rooted again,
      entered.innermost_home formed inside name⟩

open Raw in
/-- In `late; x; var x = 0; (function g(x) { g; x; late; free; }); var late = 1; var late = 2;` the
function's name and parameter are its own, and the other names are the program's. -/
def shadowing : Json :=
  program [
    expression (identifier "late"), expression (identifier "x"),
    declaration "x" (literal (.int 0)),
    expression (node "FunctionExpression" [("id", identifier "g"), ("params", .list [identifier "x"]),
      ("body", node "BlockStatement" [("body", .list [expression (identifier "g"),
        expression (identifier "x"), expression (identifier "late"), expression (identifier "free")])])]),
    declaration "late" (literal (.int 1)), declaration "late" (literal (.int 2))]

theorem shadowing_resolved : ∃ p, ofJson .standard shadowing = .ok p ∧
    (["g", "x", "late", "free"].map fun name => p.scopes.home 1 (.text name)) = [1, 1, 0, 0] ∧
    (["g", "x", "late", "free"].map fun name => p.scopes.home 0 (.text name)) = [0, 0, 0, 0] ∧
    p.Resolved := by
  have read : ∃ p, ofJson .standard shadowing = .ok p ∧
      (["g", "x", "late", "free"].map fun name => p.scopes.home 1 (.text name)) = [1, 1, 0, 0] ∧
      (["g", "x", "late", "free"].map fun name => p.scopes.home 0 (.text name)) = [0, 0, 0, 0] := by
    decide +kernel
  obtain ⟨p, accepted, inner, outer⟩ := read
  exact ⟨p, accepted, inner, outer, resolved_of_ofJson accepted⟩

end Program

end ScriptTypes
