import ScriptTypes.Proofs.Tree.Traversal
import ScriptTypes.Tree.Reader

/-! The nodes of a tree that is read carry consecutive numbers in preorder, every function takes one
new scope, and whatever a node refers to a scope by is a scope that was opened. What holds of every
reading as soon as a node that is read keeps it is shown by one induction, `Compositional`. -/

namespace ScriptTypes

namespace ReadM

variable {α β : Type}

theorem bind_eq_ok {m : ReadM α} {f : α → ReadM β} {counter : Counter} {r : β × Counter} :
    (m >>= f) counter = .ok r ↔
      ∃ a middle, m counter = .ok (a, middle) ∧ f a middle = .ok r := by
  change (m counter >>= fun (x : α × Counter) => f x.1 x.2) = .ok r ↔ _
  rcases m counter with failure | ⟨a, middle⟩
  · constructor
    · intro ran
      cases ran
    · rintro ⟨a, middle, ran, _⟩
      cases ran
  · constructor
    · intro ran
      exact ⟨a, middle, rfl, ran⟩
    · rintro ⟨a', middle', same, ran⟩
      cases same
      exact ran

theorem pure_eq_ok {a : α} {counter : Counter} {r : α × Counter} :
    (pure a : ReadM α) counter = .ok r ↔ (a, counter) = r := by
  change Except.ok (a, counter) = .ok r ↔ _
  rw [Except.ok.injEq]

theorem ofFault_eq_ok {e : Except Fault α} {counter : Counter} {r : α × Counter} :
    ofFault e counter = .ok r ↔ ∃ a, e = .ok a ∧ (a, counter) = r := by
  cases e with
  | error fault =>
    constructor
    · intro ran
      cases ran
    · rintro ⟨a, same, _⟩
      cases same
  | ok a =>
    rw [ofFault, pure_eq_ok]
    constructor
    · intro same
      exact ⟨a, rfl, same⟩
    · rintro ⟨a', same, ran⟩
      cases same
      exact ran

end ReadM

/-- However it is placed, this reads nodes that satisfy the motive, which relates them to their place
and to the counter before and after. -/
def Yields (motive : Place → Counter → List Node → Counter → Prop)
    (read : Place → ReadM (Content Node)) : Prop :=
  ∀ place first content last, read place first = .ok (content, last) →
    motive place first content.toList last

theorem readObject_eq_ok {place : Place} {fields : List (String × Json)}
    {child : Slot → Place → ReadM (Content Node)} {first last : Counter} {n : Node}
    (ran : readObject place fields child first = .ok (n, last)) :
    ∃ kind, readNode place kind fields child first = .ok (n, last) := by
  unfold readObject at ran
  generalize (fields.lookup "type").getD .null = type at ran
  cases type with
  | text name =>
    dsimp only at ran
    generalize Kind.ofText? name = kind at ran
    split at ran
    · cases ran
    · cases ran
    · exact ⟨_, ran⟩
  | _ => cases ran

/-- What holds of a node as soon as it holds of all that its slots hold, and of lists as soon as it
holds of their parts. -/
structure Compositional (motive : Place → Counter → List Node → Counter → Prop) : Prop where
  nil : ∀ place counter, motive place counter [] counter
  append : ∀ place first middle last nodes more, motive place first nodes middle →
    motive place middle more last → motive place first (nodes ++ more) last
  node : ∀ place kind fields child first n last, (∀ slot, Yields motive (child slot)) →
    readNode place kind fields child first = .ok (n, last) → motive place first [n] last

mutual
theorem readContent_yields {motive : Place → Counter → List Node → Counter → Prop}
    (compositional : Compositional motive) :
    ∀ (raw : Json) (nested : Bool), Yields motive (readContent raw nested)
  | .null, nested => by
    intro place first content last ran
    cases ran
    exact compositional.nil place first
  | .list items, true => by
    intro place first content last ran
    cases ran
  | .list items, false => by
    intro place first content last ran
    rw [readContent] at ran
    obtain ⟨nodes, _, read, ran⟩ := ReadM.bind_eq_ok.mp ran
    cases ReadM.pure_eq_ok.mp ran
    exact readItems_yields compositional items place first nodes _ read
  | .object fields, nested => by
    intro place first content last ran
    rw [readContent] at ran
    obtain ⟨n, _, read, ran⟩ := ReadM.bind_eq_ok.mp ran
    cases ReadM.pure_eq_ok.mp ran
    obtain ⟨kind, read⟩ := readObject_eq_ok read
    exact compositional.node place kind fields _ first n _
      (fun slot => readField_yields compositional slot.text fields) read
  | .bool _, nested | .int _, nested | .double _, nested | .text _, nested => by
    intro place first content last ran
    cases ran
termination_by structural raw => raw
theorem readField_yields {motive : Place → Counter → List Node → Counter → Prop}
    (compositional : Compositional motive) (key : String) :
    ∀ fields : List (String × Json), Yields motive (readField key fields)
  | [] => by
    intro place first content last ran
    cases ran
    exact compositional.nil place first
  | (other, value) :: fields => by
    intro place first content last ran
    rw [readField] at ran
    split at ran
    · exact readContent_yields compositional value false place first content last ran
    · exact readField_yields compositional key fields place first content last ran
termination_by structural fields => fields
theorem readItems_yields {motive : Place → Counter → List Node → Counter → Prop}
    (compositional : Compositional motive) : ∀ (items : List Json) (place : Place)
    (first : Counter) (nodes : List Node) (last : Counter),
    readItems items place first = .ok (nodes, last) → motive place first nodes last
  | [], place, first, nodes, last, ran => by
    cases ran
    exact compositional.nil place first
  | item :: items, place, first, nodes, last, ran => by
    rw [readItems] at ran
    obtain ⟨content, middle, head, ran⟩ := ReadM.bind_eq_ok.mp ran
    obtain ⟨rest, _, tail, ran⟩ := ReadM.bind_eq_ok.mp ran
    cases ReadM.pure_eq_ok.mp ran
    exact compositional.append place first middle _ _ _
      (readContent_yields compositional item true place first content middle head)
      (readItems_yields compositional items place middle rest _ tail)
termination_by structural items => items
end

theorem readProgram_eq_ok {tree : Json} {counter last : Counter} {root : Node}
    (ran : readProgram tree counter = .ok (root, last)) :
    ∃ fields, readNode .root (.statement .program) fields
      (fun slot inner => readField slot.text fields inner) counter = .ok (root, last) := by
  unfold readProgram at ran
  generalize (tree.get? "type").getD .null = type at ran
  split at ran
  · exact ⟨_, ran⟩
  · cases ran

theorem Node.ofJson_eq_ok {tree : Json} {root : Node} (accepted : ofJson tree = .ok root) :
    ∃ last, readProgram tree ⟨0, 1⟩ = .ok (root, last) := by
  change (readProgram tree ⟨0, 1⟩).map Prod.fst = .ok root at accepted
  cases read : readProgram tree ⟨0, 1⟩ with
  | error failure => rw [read] at accepted; cases accepted
  | ok result =>
    rw [read] at accepted
    cases accepted
    exact ⟨result.2, rfl⟩

theorem Binding.scope_of_content {content : Content Node} {b : Binding}
    (bound : ofContent content = .ok (some b)) : ∃ n ∈ content.toList, b.scope = n.head.scope := by
  cases content with
  | empty => cases bound
  | many nodes => cases bound
  | one node =>
    refine ⟨node, List.mem_singleton.mpr rfl, ?_⟩
    unfold ofContent at bound
    dsimp only at bound
    split at bound
    · next field _ _ =>
      cases named : Name.ofField field with
      | error fault => rw [named] at bound; cases bound
      | ok name =>
        rw [named] at bound
        cases bound
        rfl
    · cases bound

def Form.bindings : Form → List Binding
  | function _ own declarator => own.toList ++ declarator.toList
  | _ => []

/-- The node refers to scopes below this number only, and a function's own name is that of the
identifier it holds. -/
structure Node.Placed (scopes : Nat) (n : Node) : Prop where
  scope : n.head.scope < scopes
  bindings : ∀ b ∈ n.form.bindings, b.scope < scopes
  own : ∀ expression own declarator, n.form = .function expression own declarator →
    Binding.ofContent (n.content .id) = .ok own

theorem Node.Placed.mono {n : Node} {less more : Nat} (placed : n.Placed less)
    (grows : less ≤ more) : n.Placed more where
  scope := Nat.lt_of_lt_of_le placed.scope grows
  bindings b member := Nat.lt_of_lt_of_le (placed.bindings b member) grows
  own := placed.own

/-- What a reading that takes the counter from `first` to `last` makes of these nodes. -/
structure Numbered (first last : Counter) (nodes : List Node) : Prop where
  ids : (Node.preorderAll nodes).map Node.id =
    List.range' first.node (Node.preorderAll nodes).length
  node : last.node = first.node + (Node.preorderAll nodes).length
  scope : last.scope = first.scope + (Node.preorderAll nodes).countP (·.kind.isFunction)
  placed : ∀ n ∈ Node.preorderAll nodes, n.Placed last.scope

namespace Numbered

variable {first middle last : Counter} {nodes more : List Node}

theorem nil : Numbered first first [] where
  ids := rfl
  node := rfl
  scope := rfl
  placed n member := by cases member

theorem scope_le (numbered : Numbered first last nodes) : first.scope ≤ last.scope := by
  rw [numbered.scope]
  exact Nat.le_add_right _ _

theorem append (left : Numbered first middle nodes) (right : Numbered middle last more) :
    Numbered first last (nodes ++ more) := by
  have split := Node.preorderAll_append nodes more
  refine ⟨?_, ?_, ?_, ?_⟩
  · rw [split, List.map_append, left.ids, right.ids, left.node, List.length_append,
      List.range'_append_1]
  · rw [split, List.length_append, right.node, left.node, Nat.add_assoc]
  · rw [split, List.countP_append, right.scope, left.scope, Nat.add_assoc]
  · intro n member
    rw [split] at member
    rcases List.mem_append.mp member with member | member
    · exact (left.placed n member).mono right.scope_le
    · exact right.placed n member

theorem root_scope (numbered : Numbered first last nodes) :
    ∀ n ∈ nodes, n.head.scope < last.scope := by
  intro n member
  refine (numbered.placed n ?_).scope
  rw [Node.preorderAll_eq_flatMap, List.mem_flatMap]
  exact ⟨n, member, n.mem_preorder_self⟩

/-- Adds the parent of nodes that were read once it was numbered and its scope opened. -/
theorem parent {n : Node} {opened : Counter} (id : n.id = first.node)
    (node : opened.node = first.node + 1)
    (scope : opened.scope = first.scope + if n.kind.isFunction then 1 else 0)
    (children : Numbered opened last n.children) (placed : n.Placed last.scope) :
    Numbered first last [n] := by
  have whole := Node.preorderAll_singleton n
  refine ⟨?_, ?_, ?_, ?_⟩
  · rw [whole, List.map_cons, children.ids, id, node, List.length_cons, List.range'_succ]
  · rw [whole, children.node, node, List.length_cons, Nat.add_assoc, Nat.add_comm 1]
  · rw [whole, children.scope, scope, List.countP_cons, Nat.add_assoc, Nat.add_comm (ite _ _ _)]
  · intro m member
    rw [whole] at member
    rcases List.mem_cons.mp member with rfl | member
    · exact placed
    · exact children.placed m member

end Numbered

structure Place.Open (counter : Counter) (place : Place) : Prop where
  scope : place.scope < counter.scope
  declarator : ∀ n ∈ place.declarator.toList, n.head.scope < counter.scope

namespace Opening

/-- The form is of the kind met, and a function's holds what its slot `id` and its place bind. -/
theorem form_eq_ok {o : Opening} {r : Reading} {f : Form} (formed : o.form r = .ok f) :
    f.kind = o.kind ∧ ∀ expression own declarator, f = .function expression own declarator →
      Binding.ofContent (r.content .id) = .ok own ∧
        Binding.ofContent o.place.declarator = .ok declarator := by
  have bound : ∀ expression : Bool,
      (do
        let own ← Binding.ofContent (r.content .id)
        let declarator ← Binding.ofContent o.place.declarator
        return Form.function expression own declarator : Except Fault Form) = .ok f →
      ∃ own declarator, f = .function expression own declarator ∧
        Binding.ofContent (r.content .id) = .ok own ∧
        Binding.ofContent o.place.declarator = .ok declarator := by
    intro expression ran
    cases mine : Binding.ofContent (r.content .id) with
    | error fault => rw [mine] at ran; cases ran
    | ok own =>
      cases theirs : Binding.ofContent o.place.declarator with
      | error fault => rw [mine, theirs] at ran; cases ran
      | ok declarator =>
        rw [mine, theirs] at ran
        cases ran
        exact ⟨own, declarator, rfl, rfl, rfl⟩
  cases kind : o.kind <;> simp only [form, kind] at formed
  case functionDeclaration =>
    obtain ⟨own, declarator, rfl, mine, theirs⟩ := bound false formed
    refine ⟨rfl, ?_⟩
    rintro _ _ _ ⟨⟩
    exact ⟨mine, theirs⟩
  case functionExpression =>
    obtain ⟨own, declarator, rfl, mine, theirs⟩ := bound true formed
    refine ⟨rfl, ?_⟩
    rintro _ _ _ ⟨⟩
    exact ⟨mine, theirs⟩
  all_goals
    cases formed
    exact ⟨rfl, fun _ _ _ same => by cases same⟩

variable {o : Opening} {r : Reading} {n : Node}

theorem close_eq_ok (closed : o.close r = .ok n) :
    ∃ f, o.form r = .ok f ∧ n = .mk ⟨o.id, f, o.place.parent, o.place.slot, o.place.scope, o.inner,
      r.lists, o.fields, o.location⟩ r.children := by
  unfold close at closed
  cases formed : o.form r with
  | error fault => rw [formed] at closed; cases closed
  | ok f =>
    rw [formed] at closed
    cases closed
    exact ⟨f, rfl, rfl⟩

theorem placed_of_close {scopes : Nat} (closed : o.close r = .ok n) (scope : o.place.scope < scopes)
    (children : ∀ c ∈ r.children, c.head.scope < scopes)
    (declarator : ∀ c ∈ o.place.declarator.toList, c.head.scope < scopes) : n.Placed scopes := by
  obtain ⟨f, formed, rfl⟩ := close_eq_ok closed
  refine ⟨scope, ?_, ?_⟩
  · intro b member
    change b ∈ f.bindings at member
    cases f with
    | function expression own theirs =>
      obtain ⟨mine, outer⟩ := (form_eq_ok formed).2 _ _ _ rfl
      rcases List.mem_append.mp member with member | member
      · rw [Option.mem_toList.mp member] at mine
        obtain ⟨c, held, same⟩ := Binding.scope_of_content mine
        obtain ⟨c, child, _, rfl⟩ := Content.mem_ofParts held
        exact same ▸ children c child
      · rw [Option.mem_toList.mp member] at outer
        obtain ⟨c, held, same⟩ := Binding.scope_of_content outer
        exact same ▸ declarator c held
    | _ => cases member
  · intro expression own theirs form
    change f = _ at form
    exact ((form_eq_ok formed).2 _ _ _ form).1

end Opening

/-- Numbering a node takes the next number, and the next scope for a function. -/
theorem openNode_eq_ok {place : Place} {kind : Kind} {fields : List (String × Json)}
    {first opened : Counter} {o : Opening} (ran : openNode place kind fields first = .ok (o, opened)) :
    o.id = first.node ∧ o.kind = kind ∧ o.place = place ∧ o.fields = fields ∧
      opened = ⟨first.node + 1, first.scope + if kind.isFunction then 1 else 0⟩ ∧
      (o.inner = if kind.isFunction then first.scope else place.scope) := by
  unfold openNode at ran
  obtain ⟨location, _, located, ran⟩ := ReadM.bind_eq_ok.mp ran
  obtain ⟨_, _, same⟩ := ReadM.ofFault_eq_ok.mp located
  cases same
  obtain ⟨id, _, numbered, ran⟩ := ReadM.bind_eq_ok.mp ran
  cases numbered
  dsimp only at ran
  have finish : ∀ middle : Counter, middle = ⟨first.node + 1, first.scope⟩ →
      (if kind.isFunction then ReadM.newScope >>= fun inner =>
          (pure ⟨first.node, kind, place, inner, fields, location⟩ : ReadM Opening)
        else (pure place.scope : ReadM ScopeId) >>= fun inner =>
          pure ⟨first.node, kind, place, inner, fields, location⟩) middle = .ok (o, opened) →
      o.id = first.node ∧ o.kind = kind ∧ o.place = place ∧ o.fields = fields ∧
        opened = ⟨first.node + 1, first.scope + if kind.isFunction then 1 else 0⟩ ∧
        (o.inner = if kind.isFunction then first.scope else place.scope) := by
    rintro _ rfl ran
    split at ran
    · next isFunction =>
      cases ran
      simp [isFunction]
    · next notFunction =>
      cases ran
      simp [notFunction]
  split at ran
  · obtain ⟨_, middle, named, ran⟩ := ReadM.bind_eq_ok.mp ran
    refine finish middle ?_ ran
    cases known : Name.ofField (fields.lookup "name") with
    | error fault => rw [known] at named; cases named
    | ok name => rw [known] at named; cases named; rfl
  · exact finish _ rfl ran

def Numbers (read : Place → ReadM (Content Node)) : Prop :=
  ∀ place first content last, place.Open first → read place first = .ok (content, last) →
    Numbered first last content.toList

theorem Opening.childScope_lt (o : Opening) (slot : Slot) {scopes : Nat}
    (scope : o.place.scope < scopes) (inner : o.inner < scopes) : o.childScope slot < scopes := by
  unfold childScope
  split
  · exact scope
  · exact inner

theorem Opening.childPlace_open {o : Opening} {r : Reading} {counter : Counter} (slot : Slot)
    (scope : o.place.scope < counter.scope) (inner : o.inner < counter.scope)
    (children : ∀ c ∈ r.children, c.head.scope < counter.scope) :
    (o.childPlace r slot).Open counter := by
  constructor
  · exact o.childScope_lt slot scope inner
  · intro n member
    unfold childPlace at member
    dsimp only at member
    split at member
    · obtain ⟨c, child, _, rfl⟩ := Content.mem_ofParts member
      exact children c child
    · cases member

/-- Reads these slots one after the other. -/
def Opening.readSlots (o : Opening) (child : Slot → Place → ReadM (Content Node))
    (slots : List Slot) (r : Reading) : ReadM Reading :=
  slots.foldlM (fun (reading : Reading) slot => do
    return reading.add slot (← child slot (o.childPlace reading slot))) r

/-- What reading one slot passes on to the slots after it holds when all have been read. -/
theorem Opening.readSlots_induction {motive : List Slot → Reading → Counter → Prop} (o : Opening)
    {child : Slot → Place → ReadM (Content Node)}
    (step : ∀ slot slots r middle content next, motive (slot :: slots) r middle →
      child slot (o.childPlace r slot) middle = .ok (content, next) →
      motive slots (r.add slot content) next)
    {slots : List Slot} {r result : Reading} {middle last : Counter} (begun : motive slots r middle)
    (ran : o.readSlots child slots r middle = .ok (result, last)) : motive [] result last := by
  unfold readSlots at ran
  induction slots generalizing r middle with
  | nil =>
    cases ReadM.pure_eq_ok.mp ran
    exact begun
  | cons slot slots ih =>
    rw [List.foldlM_cons] at ran
    obtain ⟨added, next, read, ran⟩ := ReadM.bind_eq_ok.mp ran
    obtain ⟨content, _, held, read⟩ := ReadM.bind_eq_ok.mp read
    cases ReadM.pure_eq_ok.mp read
    exact ih (step slot slots r middle content _ begun held) ran

theorem readNode_numbered {place : Place} {kind : Kind} {fields : List (String × Json)}
    {child : Slot → Place → ReadM (Content Node)} (reads : ∀ slot, Numbers (child slot))
    {first last : Counter} {n : Node} (opened : place.Open first)
    (ran : readNode place kind fields child first = .ok (n, last)) :
    Numbered first last [n] ∧ n.kind = kind := by
  obtain ⟨o, after, numbered, ran⟩ := ReadM.bind_eq_ok.mp ran
  obtain ⟨r, _, read, ran⟩ := ReadM.bind_eq_ok.mp ran
  obtain ⟨_, closed, same⟩ := ReadM.ofFault_eq_ok.mp ran
  cases same
  obtain ⟨id, rfl, rfl, _, rfl, inner⟩ := openNode_eq_ok numbered
  have grows : first.scope ≤ first.scope + if o.kind.isFunction then 1 else 0 :=
    Nat.le_add_right _ _
  have innerOpen : o.inner < first.scope + if o.kind.isFunction then 1 else 0 := by
    rw [inner]
    split
    · exact Nat.lt_succ_self _
    · exact opened.scope
  have children := o.readSlots_induction
    (motive := fun _ r middle =>
      Numbered ⟨first.node + 1, first.scope + if o.kind.isFunction then 1 else 0⟩ middle r.children)
    (fun slot slots r middle content next begun held =>
      begun.append (reads slot _ _ _ _
        (o.childPlace_open slot
          (Nat.lt_of_lt_of_le (Nat.lt_of_lt_of_le opened.scope grows) begun.scope_le)
          (Nat.lt_of_lt_of_le innerOpen begun.scope_le) begun.root_scope) held)) .nil read
  have reach := Nat.le_trans grows children.scope_le
  have placed := o.placed_of_close closed (Nat.lt_of_lt_of_le opened.scope reach)
    children.root_scope fun c held => Nat.lt_of_lt_of_le (opened.declarator c held) reach
  obtain ⟨f, formed, rfl⟩ := o.close_eq_ok closed
  have sameKind : f.kind = o.kind := (o.form_eq_ok formed).1
  refine ⟨.parent id rfl ?_ children placed, sameKind⟩
  change _ = _ + if f.kind.isFunction then 1 else 0
  rw [sameKind]

theorem numbered_compositional :
    Compositional fun place first nodes last => place.Open first → Numbered first last nodes where
  nil _ _ _ := .nil
  append place first middle last nodes more left right opened := by
    have begun := left opened
    have still : place.Open middle :=
      ⟨Nat.lt_of_lt_of_le opened.scope begun.scope_le,
        fun n held => Nat.lt_of_lt_of_le (opened.declarator n held) begun.scope_le⟩
    exact begun.append (right still)
  node place kind fields child first n last reads ran opened := by
    refine (readNode_numbered ?_ opened ran).1
    intro slot place first content last opened ran
    exact reads slot place first content last ran opened

theorem readField_numbered (key : String) (fields : List (String × Json)) :
    Numbers (readField key fields) :=
  fun place first content last opened ran =>
    readField_yields numbered_compositional key fields place first content last ran opened

theorem readProgram_numbered {tree : Json} {root : Node} {last : Counter}
    (ran : readProgram tree ⟨0, 1⟩ = .ok (root, last)) :
    root.kind = .statement .program ∧ Numbered ⟨0, 1⟩ last [root] := by
  have opened : Place.root.Open ⟨0, 1⟩ := ⟨Nat.one_pos, fun n member => by cases member⟩
  obtain ⟨fields, ran⟩ := readProgram_eq_ok ran
  exact (readNode_numbered (fun slot => readField_numbered slot.text fields) opened ran).symm

theorem Node.ofJson_numbered {tree : Json} {root : Node} (accepted : ofJson tree = .ok root) :
    root.kind = .statement .program ∧ ∃ last, Numbered ⟨0, 1⟩ last [root] := by
  obtain ⟨last, read⟩ := ofJson_eq_ok accepted
  obtain ⟨kind, numbered⟩ := readProgram_numbered read
  exact ⟨kind, last, numbered⟩

end ScriptTypes
