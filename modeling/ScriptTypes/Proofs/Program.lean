import Mathlib.Data.List.Nodup
import ScriptTypes.Inference.State
import ScriptTypes.Proofs.Tree.Numbering

/-! The scopes of a program that was read are those of its functions and one more. Every name
belongs to one of them, and all of them bound the depth alike. -/

namespace ScriptTypes

def Form.names : Form → List Name
  | identifier field _ =>
    match Name.ofField field with
    | .ok name => [name]
    | .error _ => []
  | form => form.bindings.map Binding.name

/-- The scopes bound the depth alike and lie inside scopes below this number only. -/
def Scopes.Closed (bound : Int) (total : Nat) (scopes : Scopes) : Prop :=
  ∀ scope ∈ scopes, scope.depthBound = bound ∧ ∀ outer ∈ scope.outer, outer < total

namespace Scopes

variable {bound : Int} {total : Nat} {scopes : Scopes}

theorem Closed.chain_lt (closed : scopes.Closed bound total) {s : ScopeId} (inside : s < total) :
    ∀ outer ∈ scopes.chain s, outer < total := by
  intro outer member
  unfold chain at member
  split at member
  · next scope found =>
    rcases List.mem_cons.mp member with rfl | member
    · exact inside
    · exact (closed scope (Array.mem_of_getElem? found)).2 outer member
  · rw [List.mem_singleton.mp member]
    exact inside

/-- A name belongs to a scope that exists. -/
theorem Closed.home_lt (closed : scopes.Closed bound total) {s : ScopeId} (inside : s < total)
    (name : Name) : scopes.home s name < total := by
  unfold home
  cases found : (scopes.chain s).find? (scopes.declares name) with
  | some outer => exact closed.chain_lt inside outer (List.mem_of_find?_eq_some found)
  | none =>
    change (scopes.chain s).getLastD s < total
    rw [List.getLastD_eq_getLast?]
    cases last : (scopes.chain s).getLast? with
    | none => exact inside
    | some outer => exact closed.chain_lt inside outer (List.mem_of_getLast? last)

theorem Closed.boundOf (closed : scopes.Closed bound total) {s : ScopeId}
    (inside : s < scopes.size) : scopes.boundOf s = bound := by
  unfold Scopes.boundOf
  rw [Array.getElem?_eq_getElem inside]
  exact (closed _ (Array.getElem_mem inside)).1

theorem Closed.modify (closed : scopes.Closed bound total) (s : ScopeId) {change : Scope → Scope}
    (same : ∀ scope, (change scope).depthBound = scope.depthBound ∧
      (change scope).outer = scope.outer) : Closed bound total (Array.modify scopes s change) := by
  intro scope member
  obtain ⟨i, inside, rfl⟩ := Array.getElem_of_mem member
  rw [Array.getElem_modify]
  have old := closed _ (Array.getElem_mem (by simpa using inside))
  split
  · rw [(same _).1, (same _).2]
    exact old
  · exact old

end Scopes

namespace Program

variable {bound : Int} {total : Nat}

theorem openScope_eq (scopes : Scopes) (n : Node) :
    openScope bound scopes n = if n.kind.isFunction then
      scopes.push ⟨n.kind.text ++ " " ++ n.form.displayName.plain, scopes.chain n.head.scope, bound,
        [], []⟩ else scopes := by
  unfold openScope
  change _ = if n.form.kind.isFunction then _ else _
  split
  · next expression own declarator _ => cases expression <;> simp [Form.kind, Kind.isFunction, *]
  · next other =>
    have plain : ¬ n.form.kind.isFunction = true := by
      cases form : n.form <;> simp_all [Form.kind, Kind.isFunction]
    rw [if_neg plain]

theorem openScope_closed {scopes : Scopes} (closed : scopes.Closed bound total) {n : Node}
    (inside : n.head.scope < total) : (openScope bound scopes n).Closed bound total := by
  rw [openScope_eq]
  split
  · intro scope member
    rcases Array.mem_push.mp member with member | rfl
    · exact closed scope member
    · exact ⟨rfl, closed.chain_lt inside⟩
  · exact closed

theorem openScope_size (scopes : Scopes) (n : Node) :
    (openScope bound scopes n).size = scopes.size + if n.kind.isFunction then 1 else 0 := by
  rw [openScope_eq]
  split
  · exact Array.size_push _
  · rfl

theorem foldl_closed {α : Type} (step : Scopes → α → Scopes) (opens : α → Bool) (items : List α)
    (keeps : ∀ scopes : Scopes, ∀ a ∈ items, scopes.Closed bound total →
      (step scopes a).Closed bound total ∧
        (step scopes a).size = scopes.size + if opens a then 1 else 0)
    {scopes : Scopes} (closed : scopes.Closed bound total) :
    Scopes.Closed bound total (items.foldl step scopes) ∧
      (items.foldl step scopes).size = scopes.size + items.countP opens := by
  induction items generalizing scopes with
  | nil => exact ⟨closed, rfl⟩
  | cons a items ih =>
    obtain ⟨next, grown⟩ := keeps scopes a List.mem_cons_self closed
    obtain ⟨later, size⟩ := ih (fun scopes b member => keeps scopes b (List.mem_cons_of_mem _ member))
      next
    refine ⟨later, size.trans ?_⟩
    rw [grown, List.countP_cons, Nat.add_assoc, Nat.add_comm (ite _ _ _)]

theorem enterName_size (scopes : Scopes) (n : Node) : (enterName scopes n).size = scopes.size := by
  unfold enterName
  split
  · split
    · exact Array.size_modify
    · rfl
  · rfl

theorem enterName_closed {scopes : Scopes} (closed : scopes.Closed bound total) (n : Node) :
    (enterName scopes n).Closed bound total := by
  unfold enterName
  split
  · split
    · exact closed.modify _ fun scope => ⟨rfl, rfl⟩
    · exact closed
  · exact closed

theorem enterFunction_closed {scopes : Scopes} (closed : scopes.Closed bound total) (n : Node) :
    (enterFunction scopes n).Closed bound total ∧
      (enterFunction scopes n).size = scopes.size := by
  unfold enterFunction
  split
  · next own declarator _ =>
    have bound := foldl_closed
      (fun scopes b => Array.modify scopes b.scope (Scope.bind b.name n.id)) (fun _ => false)
      (own.toList ++ declarator.toList)
      (fun _ b _ closed => ⟨closed.modify _ fun scope => ⟨rfl, rfl⟩, Array.size_modify⟩) closed
    simpa using bound
  · exact ⟨closed, rfl⟩

/-- The scopes of a tree: one for each function and one more, all closed. -/
theorem scopesOf_closed (bound : Int) (root : Node)
    (placed : ∀ n ∈ root.preorder, n.head.scope < 1 + root.preorder.countP (·.kind.isFunction)) :
    (scopesOf bound root).Closed bound (scopesOf bound root).size ∧
      (scopesOf bound root).size = 1 + root.preorder.countP (·.kind.isFunction) := by
  let total := 1 + root.preorder.countP (·.kind.isFunction)
  have outermost : Scopes.Closed bound total #[⟨"Program", [], bound, [], []⟩] := by
    intro scope member
    rw [List.mem_singleton.mp (Array.mem_toList_iff.mpr member)]
    exact ⟨rfl, fun outer none => by cases none⟩
  obtain ⟨opened, count⟩ := foldl_closed (openScope bound) (·.kind.isFunction) root.preorder
    (fun scopes n member closed => ⟨openScope_closed closed (placed n member), openScope_size scopes n⟩)
    outermost
  obtain ⟨named, kept⟩ := foldl_closed enterName (fun _ => false) root.preorder
    (fun scopes n _ closed => ⟨enterName_closed closed n, enterName_size scopes n⟩) opened
  obtain ⟨entered, size⟩ := foldl_closed enterFunction (fun _ => false) root.postorder
    (fun scopes n _ closed => enterFunction_closed closed n) named
  have whole : (scopesOf bound root).size = total := by
    unfold scopesOf
    rw [size, kept, count]
    simp [total]
  exact ⟨whole ▸ entered, whole⟩

/-- What holds of every program that was read. -/
structure WellFormed (p : Program) : Prop where
  distinct : (p.root.preorder.map Node.id).Nodup
  placed : ∀ n ∈ p.root.preorder, n.Placed p.scopes.size
  closed : p.scopes.Closed p.settings.maxDepth p.scopes.size
  size : p.scopes.size = 1 + p.root.preorder.countP (·.kind.isFunction)
  kind : p.root.kind = .statement .program

instance {ε α : Type} (result : Except ε α) (Q : α → Prop) [DecidablePred Q] :
    Decidable (∃ a, result = .ok a ∧ Q a) :=
  match result with
  | .ok a => decidable_of_iff (Q a)
      ⟨fun holds => ⟨a, rfl, holds⟩, by rintro ⟨_, ⟨⟩, holds⟩; exact holds⟩
  | .error _ => isFalse (by rintro ⟨_, ⟨⟩, _⟩)

theorem ofJson_eq_ok {settings : Settings} {tree : Json} {p : Program}
    (accepted : ofJson settings tree = .ok p) :
    ∃ root, Node.ofJson tree = .ok root ∧ p = ofTree settings root := by
  unfold ofJson at accepted
  cases read : Node.ofJson tree with
  | error failure => rw [read] at accepted; cases accepted
  | ok root =>
    rw [read] at accepted
    cases accepted
    exact ⟨root, rfl, rfl⟩

theorem wellFormed_of_ofJson {settings : Settings} {tree : Json} {p : Program}
    (accepted : ofJson settings tree = .ok p) : p.WellFormed := by
  obtain ⟨root, read, rfl⟩ := ofJson_eq_ok accepted
  obtain ⟨kind, last, numbered⟩ := Node.ofJson_numbered read
  have whole : Node.preorderAll [root] = root.preorder := List.append_nil _
  have scopes := numbered.scope
  have ids := numbered.ids
  have placed := numbered.placed
  rw [whole] at scopes ids placed
  rw [scopes] at placed
  obtain ⟨closed, size⟩ := scopesOf_closed settings.maxDepth root
    fun n member => (placed n member).scope
  refine ⟨?_, ?_, closed, size, kind⟩
  · change (root.preorder.map Node.id).Nodup
    rw [ids]
    exact List.nodup_range'
  · intro n member
    change n.Placed (scopesOf settings.maxDepth root).size
    rw [size]
    exact placed n member

def names (p : Program) : List Name := p.root.preorder.flatMap fun n => n.form.names

namespace WellFormed

variable {p : Program}

theorem eq_of_id (formed : p.WellFormed) {m n : Node} (left : m ∈ p.root.preorder)
    (right : n ∈ p.root.preorder) (same : m.id = n.id) : m = n :=
  List.inj_on_of_nodup_map formed.distinct left right same

theorem root_form (formed : p.WellFormed) : p.root.form = .statement .program := by
  have kind := formed.kind
  change p.root.form.kind = _ at kind
  cases form : p.root.form with
  | statement kind => simp_all [Form.kind]
  | function expression own declarator => rw [form] at kind; cases expression <;> cases kind
  | _ => rw [form] at kind; cases kind

end WellFormed

end Program

end ScriptTypes
