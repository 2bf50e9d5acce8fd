import ScriptTypes.Proofs.Bindings
import ScriptTypes.Proofs.Inference.Stability

/-! A listing shows the members of a scope one after the other. Once all functions without a name
can be typed it shows every name that the scope declares, apart from the own name of the function
that opens it, and with the type that the table of the scope gives it, unless the last function
shown under the name is bound elsewhere. -/

namespace ScriptTypes

open Descriptor (Canonical)

namespace Table

variable {α : Type}

theorem get?_congr (t : Table α) {name other : Name} (same : name.key = other.key) :
    get? t name = get? t other := by
  unfold get?
  rw [same]

theorem get?_putNew (t : Table α) (name other : Name) (a : α) :
    get? (putNew name a t) other =
      if other.key = name.key then some ((get? t name).getD a) else get? t other := by
  unfold putNew
  rw [isAmong_names]
  cases found : get? t name with
  | some b =>
    rw [Option.isSome_some, if_pos rfl]
    split
    · next same => rw [get?_congr t same, found, Option.getD_some]
    · rfl
  | none =>
    rw [Option.isSome_none, if_neg Bool.false_ne_true, Option.getD_none]
    by_cases same : other.key = name.key
    · rw [if_pos same]
      rw [← get?_congr t same] at found
      unfold get? at found ⊢
      rw [List.find?_append, Option.map_eq_none_iff.mp found]
      simp [same]
    · rw [if_neg same]
      unfold get?
      simp [List.find?_append, Ne.symm same]

end Table

namespace Environment

variable {env : Environment}

/-- Enters one member of the scope that is listed. -/
def enterMember (env : Environment) (recursive : Bool) (owner : NodeId) (listing : Listing)
    (n : Node) : InferM Listing :=
  match n.form with
  | .function _ _ _ => do
    let type ← env.listedType n
    let inner ← if recursive then some <$> env.listing recursive n else pure none
    pure (Table.put n.form.displayName (.mk type inner) listing)
  | .identifier name .definition =>
    if n.head.parent = some owner ∧ n.head.slot = some .id then pure listing
    else do
      let name ← InferM.ofFault (Name.ofField name)
      let type ← env.nameType n.head.scope (some name.toJson) .definition
      pure (Table.putNew name (.mk type none) listing)
  | _ => pure listing

theorem enter_eq (recursive : Bool) (owner : NodeId) (s : ScopeId) (n : Node) (listing : Listing) :
    env.enter recursive owner s n listing =
      if n.head.scope = s then do
        let listing ← env.enterMember recursive owner listing n
        if n.head.inner = s then env.enterAll recursive owner s n.children listing
          else pure listing
      else pure listing := by
  cases n with
  | mk head children =>
    rw [enter]
    by_cases here : head.scope = s
    · simp only [Node.head, here, ne_eq, not_true_eq_false, if_false, if_true]
      unfold enterMember
      cases form : head.form with
      | function expression own declarator =>
        simp only [Node.form, Node.head, form, bind_assoc]
        refine bind_congr fun type => ?_
        cases recursive with
        | false =>
          simp only [Bool.false_eq_true, if_false, pure_bind]
          rfl
        | true =>
          simp only [if_true, bind_assoc, pure_bind]
          rfl
      | identifier name role =>
        cases role with
        | definition =>
          simp only [Node.form, Node.head, form]
          by_cases own : head.parent = some owner ∧ head.slot = some .id
          · simp only [own, and_self, if_true, pure_bind]
            rfl
          · simp only [own, if_false, bind_assoc, pure_bind, here]
            rfl
        | _ => simp only [Node.form, Node.head, form, pure_bind]; rfl
      | _ => simp only [Node.form, Node.head, form, pure_bind]; rfl
    · simp [Node.head, here]

theorem enterAll_eq_foldlM {recursive : Bool} {owner : NodeId} {s : ScopeId} {nodes : List Node}
    (each : ∀ n ∈ nodes, ∀ listing, env.enter recursive owner s n listing =
      (n.inScope s).foldlM (env.enterMember recursive owner) listing) (listing : Listing) :
    env.enterAll recursive owner s nodes listing =
      (Node.inScopeAll s nodes).foldlM (env.enterMember recursive owner) listing := by
  induction nodes generalizing listing with
  | nil => rfl
  | cons n nodes ih =>
    rw [enterAll, Node.inScopeAll, List.foldlM_append, each n List.mem_cons_self]
    refine bind_congr fun entered => ?_
    exact ih (fun m member => each m (List.mem_cons_of_mem _ member)) entered

theorem listing_eq_foldlM (recursive : Bool) (n : Node) :
    env.listing recursive n = n.members.foldlM (env.enterMember recursive n.id) [] := by
  have each : ∀ (m : Node) (owner : NodeId) (s : ScopeId) (listing : Listing),
      env.enter recursive owner s m listing =
        (m.inScope s).foldlM (env.enterMember recursive owner) listing := by
    intro m owner s
    induction m using Node.children_induction with
    | step m ih =>
      intro listing
      rw [enter_eq, Node.inScope_eq]
      split
      · rw [List.foldlM_cons]
        refine bind_congr fun entered => ?_
        split
        · exact enterAll_eq_foldlM ih entered
        · rfl
      · rfl
  exact enterAll_eq_foldlM (fun m _ => each m n.id n.head.inner) []

theorem enterMember_function {recursive : Bool} {owner : NodeId} {listing : Listing} {n : Node}
    (function : n.kind.isFunction = true) :
    env.enterMember recursive owner listing n = env.listedType n >>= fun type =>
      (if recursive then some <$> env.listing recursive n else pure none) >>= fun inner =>
        pure (Table.put n.form.displayName (.mk type inner) listing) := by
  obtain ⟨expression, own, declarator, form⟩ := Node.function_of_kind function
  simp only [enterMember, form]
  cases recursive <;> rfl

theorem enterMember_definition {recursive : Bool} {owner : NodeId} {listing : Listing} {n : Node}
    {field : Option Json} (form : n.form = .identifier field .definition)
    (listed : ¬ (n.head.parent = some owner ∧ n.head.slot = some .id)) :
    env.enterMember recursive owner listing n = (do
      let name ← InferM.ofFault (Name.ofField field)
      let type ← env.nameType n.head.scope (some name.toJson) .definition
      pure (Table.putNew name (.mk type none) listing)) := by
  simp only [enterMember, form, listed, if_false]

theorem enterMember_other {recursive : Bool} {owner : NodeId} {listing : Listing} {n : Node}
    (plain : n.kind.isFunction = false)
    (skipped : ∀ field, n.form = .identifier field .definition →
      n.head.parent = some owner ∧ n.head.slot = some .id) :
    env.enterMember recursive owner listing n = pure listing := by
  unfold enterMember
  split
  · next form =>
    rw [Node.isFunction_of_form form] at plain
    cases plain
  · next field form => rw [if_pos (skipped field form)]
  · rfl

theorem enterMember_consults {sort : Descriptor → Prop} {asked : Node → Prop} {n : Node}
    (inside : ∀ m ∈ n.preorder, asked m) (recursive : Bool) (owner : NodeId) (listing : Listing) :
    Consults sort env asked (fun _ => True) (env.enterMember recursive owner listing n) := by
  unfold enterMember
  split
  · refine .bind (listedType_consults (inside n n.mem_preorder_self)) fun type _ => ?_
    cases recursive with
    | false => exact .bind (P := fun _ => True) (.pure trivial) fun inner _ => .pure trivial
    | true =>
      rw [if_pos rfl, map_eq_pure_bind]
      refine .bind (P := fun _ => True) ?_ fun inner _ => .pure trivial
      exact .bind (listing_consults inside true) fun inner _ => .pure trivial
  · split
    · exact .pure trivial
    · refine .bind (P := fun _ => True) (.ofFault fun _ _ => trivial) fun name _ => ?_
      refine .bind (.name n.head.scope _ .definition fun _ _ => trivial) fun type (_ : True) => ?_
      exact .pure trivial
  · exact .pure trivial

end Environment

theorem Name.ofField_toJson (name : Name) : Name.ofField (some name.toJson) = .ok name := by
  cases name <;> rfl

def InferM.Succeeds {α : Type} (m : InferM α) (st : State) : Prop := ∃ a, (m.outcome st).1 = .ok a

theorem InferM.succeeds_pure {α : Type} (a : α) (st : State) : (pure a : InferM α).Succeeds st :=
  ⟨a, rfl⟩

/-- Where what follows a stable computation succeeds or not whatever that answers, the whole succeeds
if both parts do. -/
theorem Stable.succeeds_bind {p : Program} {base st : State} {α β : Type} {m : InferM α}
    {f : α → InferM β} {R : Prop} (stable : Stable p base m) (extended : st.Extends p base)
    (next : ∀ a middle, middle.Extends p base → ((f a).Succeeds middle ↔ R)) :
    (m >>= f).Succeeds st ↔ m.Succeeds base ∧ R := by
  obtain ⟨same, kept⟩ := stable st extended
  unfold InferM.Succeeds
  rw [InferM.outcome_bind, ← same]
  rcases ran : m.outcome st with ⟨failure | a, middle⟩
  · simp
  · rw [ran] at kept
    have answers : ∃ b, (Except.ok a : Except Failure α) = .ok b := ⟨a, rfl⟩
    exact (next a middle kept).trans (and_iff_right answers).symm

namespace Program

variable {p : Program} {st base : State} {recursive : Bool} {owner : NodeId} {n : Node}

theorem outcome_definedType (env : Environment) (s : ScopeId) (name : Name) (st : State) :
    (env.nameType s (some name.toJson) .definition).outcome st =
      (.ok ((st.table (env.scopes.home s name)).resolve name), st) := by
  rw [Environment.outcome_nameType, if_neg (by decide), name.ofField_toJson]

theorem outcome_enterMember_definition {field : Option Json} {name : Name}
    (form : n.form = .identifier field .definition) (named : Name.ofField field = .ok name)
    (listed : ¬ (n.head.parent = some owner ∧ n.head.slot = some .id)) (listing : Listing)
    (st : State) : (p.enterMember recursive owner listing n).outcome st =
      (.ok (Table.putNew name
        (.mk ((st.table (p.scopes.home n.head.scope name)).resolve name) none) listing), st) := by
  have answered := outcome_definedType p.toEnvironment n.head.scope name st
  rw [Environment.enterMember_definition form listed, named]
  change (p.nameType n.head.scope (some name.toJson) .definition >>= _).outcome st = _
  rw [InferM.outcome_bind_ok answered]
  rfl

theorem listedType_succeeds (st : State) (n : Node) :
    (p.listedType n).Succeeds st ↔ (n.form.binding? = none → ∃ d, p.typeOf st n = .ok d) := by
  unfold Environment.listedType
  cases n.form.binding? with
  | some b =>
    have answered := outcome_definedType p.toEnvironment b.scope b.name st
    simp only [reduceCtorEq, false_implies, iff_true]
    exact ⟨_, congrArg Prod.fst answered⟩
  | none =>
    simp only [true_implies]
    exact Iff.rfl

/-- The member can be listed: a function without a name has a type, and the names inside of a function
can be listed if they are asked for. -/
def Listable (p : Program) (recursive : Bool) (st : State) (n : Node) : Prop :=
  n.kind.isFunction = true → (n.form.binding? = none → ∃ d, p.typeOf st n = .ok d) ∧
    (recursive = true → (p.listing recursive n).Succeeds st)

theorem enterMember_succeeds (formed : p.WellFormed) (lawful : base.Lawful p)
    (extended : st.Extends p base) (member : n ∈ p.root.preorder) (defined : n.Defined)
    (listing : Listing) : (p.enterMember recursive owner listing n).Succeeds st ↔
      p.Listable recursive base n := by
  unfold Listable
  cases function : n.kind.isFunction with
  | true =>
    have inside : ∀ m ∈ n.preorder, m ∈ p.root.preorder := fun m below =>
      Node.preorder_trans below member
    have typed : Consults Canonical p.toEnvironment (· ∈ p.root.preorder) (fun _ => True)
        (p.listedType n) :=
      Environment.listedType_consults member
    have nested : Consults Canonical p.toEnvironment (· ∈ p.root.preorder) (fun _ => True)
        (p.listing recursive n) := Environment.listing_consults inside recursive
    rw [Environment.enterMember_function function, forall_prop_of_true rfl, ← listedType_succeeds]
    refine (typed.stable formed lawful).succeeds_bind extended ?_
    intro type middle further
    cases recursive with
    | false =>
      simp only [Bool.false_eq_true, if_false, pure_bind, false_implies, iff_true]
      exact InferM.succeeds_pure _ _
    | true =>
      simp only [if_true, map_eq_pure_bind, bind_assoc, pure_bind, true_implies]
      rw [(nested.stable formed lawful).succeeds_bind further fun inner last _ =>
        iff_true_intro (InferM.succeeds_pure _ last), and_true]
  | false =>
    simp only [Bool.false_eq_true, false_implies, iff_true]
    by_cases listed : ∃ field, n.form = .identifier field .definition ∧
        ¬ (n.head.parent = some owner ∧ n.head.slot = some .id)
    · obtain ⟨field, form, listed⟩ := listed
      obtain ⟨name, named⟩ := defined field form
      exact ⟨_, congrArg Prod.fst (outcome_enterMember_definition form named listed listing st)⟩
    · rw [Environment.enterMember_other function]
      · exact InferM.succeeds_pure _ _
      · intro field form
        by_contra other
        exact listed ⟨field, form, other⟩

theorem listing_succeeds (formed : p.WellFormed) (lawful : st.Lawful p)
    (member : n ∈ p.root.preorder) (defined : ∀ m ∈ p.root.preorder, m.Defined) :
    (p.listing recursive n).Succeeds st ↔ ∀ m ∈ n.members, p.Listable recursive st m := by
  have inside : ∀ m ∈ n.members, m ∈ p.root.preorder := fun m listed =>
    Node.preorder_trans (Node.mem_preorder_of_member listed) member
  rw [Environment.listing_eq_foldlM]
  have fold : ∀ (nodes : List Node), (∀ m ∈ nodes, m ∈ p.root.preorder) →
      ∀ (listing : Listing) (middle : State), middle.Extends p st →
        ((nodes.foldlM (p.enterMember recursive n.id) listing).Succeeds middle ↔
          ∀ m ∈ nodes, p.Listable recursive st m) := by
    intro nodes
    induction nodes with
    | nil =>
      intro _ listing middle _
      simp only [List.foldlM_nil, List.not_mem_nil, false_implies, implies_true, iff_true]
      exact InferM.succeeds_pure _ _
    | cons m nodes ih =>
      intro inside listing middle extended
      have first := inside m List.mem_cons_self
      have consults : Consults Canonical p.toEnvironment (· ∈ p.root.preorder) (fun _ => True)
          (p.enterMember recursive n.id listing m) :=
        Environment.enterMember_consults (fun d below => Node.preorder_trans below first) _ _ _
      rw [List.foldlM_cons, (consults.stable formed lawful).succeeds_bind extended
        (ih fun d listed => inside d (List.mem_cons_of_mem _ listed)),
        enterMember_succeeds formed lawful (.refl lawful) first (defined m first),
        List.forall_mem_cons]
  exact fold n.members inside [] st (.refl lawful)

end Program

theorem Node.member_or_below {n f : Node} (nested : ∀ m ∈ n.preorder, m.Nested)
    (below : f ∈ n.descendants) (function : f.kind.isFunction = true) :
    f ∈ n.members ∨ ∃ g ∈ n.members, g.kind.isFunction = true ∧ f ∈ g.descendants := by
  induction n using Node.children_induction with
  | step n ih =>
    obtain ⟨c, child, inside⟩ := Node.mem_descendants.mp below
    have self := nested n n.mem_preorder_self
    have within : ∀ m ∈ c.preorder, m.Nested := fun m member =>
      nested m (Node.mem_preorder.mpr (.inr (Node.mem_descendants.mpr ⟨c, child, member⟩)))
    have scope : c.head.scope = n.head.inner := by
      rw [self.child c child, if_neg]
      intro names
      rw [(self.name_alone (within c c.mem_preorder_self) child names).1] at inside
      rw [List.mem_singleton.mp inside, self.named c child names] at function
      cases function
    have listed : ∀ m ∈ c.inScope n.head.inner, m ∈ n.members := by
      intro m member
      unfold Node.members
      rw [Node.inScopeAll_eq_flatMap]
      exact List.mem_flatMap.mpr ⟨c, child, member⟩
    rw [Node.inScope_eq, if_pos scope] at listed
    rcases Node.mem_preorder.mp inside with rfl | deeper
    · exact .inl (listed f List.mem_cons_self)
    · cases opens : c.kind.isFunction with
      | true => exact .inr ⟨c, listed c List.mem_cons_self, opens, deeper⟩
      | false =>
        have inner := (within c c.mem_preorder_self).plain opens
        have passed : ∀ m ∈ c.members, m ∈ n.members := by
          intro m member
          refine listed m (List.mem_cons_of_mem _ ?_)
          rw [if_pos (inner.trans scope)]
          unfold Node.members at member
          rw [inner, scope] at member
          exact member
        rcases ih c child within deeper with member | ⟨g, member, also, under⟩
        · exact .inl (passed f member)
        · exact .inr ⟨g, passed g member, also, under⟩

namespace Program

variable {p : Program} {st : State} {recursive : Bool} {owner : NodeId} {n : Node}

/-- A listing can be given if every function without a name that it shows can be typed. -/
theorem listing_succeeds_iff (formed : p.WellFormed) (rooted : p.root.Rooted) (lawful : st.Lawful p)
    (member : n ∈ p.root.preorder) (defined : ∀ m ∈ p.root.preorder, m.Defined) (recursive : Bool) :
    (p.listing recursive n).Succeeds st ↔
      ∀ f ∈ if recursive then n.descendants else n.members, f.kind.isFunction = true →
        f.form.binding? = none → ∃ d, p.typeOf st f = .ok d := by
  cases recursive with
  | false =>
    rw [listing_succeeds formed lawful member defined]
    simp only [Bool.false_eq_true, if_false, Listable, false_implies, and_true]
  | true =>
    simp only [if_true]
    induction n using Node.descendants_induction with
    | step n ih =>
      have inside : ∀ m ∈ n.descendants, m ∈ p.root.preorder := fun m below =>
        Node.preorder_trans (Node.mem_preorder.mpr (.inr below)) member
      rw [listing_succeeds formed lawful member defined]
      constructor
      · intro listable f below function
        have nested : ∀ m ∈ n.preorder, m.Nested := fun m within =>
          rooted.nested m (Node.preorder_trans within member)
        rcases Node.member_or_below nested below function with listed | ⟨g, listed, also, under⟩
        · exact (listable f listed function).1
        · have deeper := n.members_sublist.mem listed
          have inner := (listable g listed also).2 rfl
          exact (ih g deeper (inside g deeper)).mp inner f under function
      · intro typed m listed function
        have below := n.members_sublist.mem listed
        refine ⟨typed m below function, fun _ => ?_⟩
        refine (ih m below (inside m below)).mpr ?_
        intro f under
        exact typed f (Node.descendants_trans (Node.mem_preorder.mpr (.inr under)) below)

def Shows (owner : NodeId) (name : Name) (n : Node) : Prop :=
  n.kind.isFunction = true ∧ n.form.displayName.key = name.key ∨
    ¬ (n.head.parent = some owner ∧ n.head.slot = some .id) ∧
      ∃ field spelled, n.form = .identifier field .definition ∧
        Name.ofField field = .ok spelled ∧ spelled.key = name.key

end Program

namespace Node

def isShown (name : Name) (n : Node) : Bool :=
  n.kind.isFunction && n.form.displayName.key = name.key

/-- The last function shown under a name, of those that belong to the scope that the node opens. -/
def lastShown (n : Node) (name : Name) : Option Node := n.members.reverse.find? (isShown name)

theorem key_of_isShown {name : Name} {n : Node} (shown : n.isShown name = true) :
    n.form.displayName.key = name.key := by
  simp only [isShown, Bool.and_eq_true, decide_eq_true_eq] at shown
  exact shown.2

theorem shown_of_lastShown {n f : Node} {name : Name} (last : n.lastShown name = some f) :
    f ∈ n.members ∧ f.isShown name = true :=
  ⟨List.mem_reverse.mp (List.mem_of_find?_eq_some last), List.find?_some last⟩

end Node

namespace Form

variable {form : Form} {b : Binding}

theorem mem_bindings (bound : form.binding? = some b) : b ∈ form.bindings := by
  cases form with
  | function expression own declarator =>
    cases declarator with
    | some d => exact List.mem_append_right _ (Option.mem_toList.mpr bound)
    | none => exact List.mem_append_left _ (Option.mem_toList.mpr bound)
  | _ => cases bound

theorem displayName_of_binding (bound : form.binding? = some b) : form.displayName = b.name := by
  unfold displayName
  rw [bound]

end Form

namespace Program

variable {p : Program} {st : State} {recursive : Bool} {owner : NodeId} {n : Node}

/-- What entering a member makes of a listing, by what the member is. -/
theorem enterMember_ok {l l' : Listing} {after : State} (defined : n.Defined)
    (ran : (p.enterMember recursive owner l n).outcome st = (.ok l', after)) :
    (n.kind.isFunction = true ∧ ∃ type inner, l' = Table.put n.form.displayName (.mk type inner) l ∧
      ((p.listedType n).outcome st).1 = .ok type) ∨
    (∃ field name, n.form = .identifier field .definition ∧ Name.ofField field = .ok name ∧
      ¬ (n.head.parent = some owner ∧ n.head.slot = some .id) ∧
      l' = Table.putNew name
        (.mk ((st.table (p.scopes.home n.head.scope name)).resolve name) none) l) ∨
    (¬ n.kind.isFunction = true ∧ l' = l ∧ ∀ field, n.form = .identifier field .definition →
      n.head.parent = some owner ∧ n.head.slot = some .id) := by
  by_cases function : n.kind.isFunction = true
  · refine .inl ⟨function, ?_⟩
    rw [Environment.enterMember_function function] at ran
    obtain ⟨type, middle, typed, ran⟩ := InferM.outcome_bind_eq_ok ran
    obtain ⟨inner, last, _, ran⟩ := InferM.outcome_bind_eq_ok ran
    cases ran
    exact ⟨type, inner, rfl, congrArg Prod.fst typed⟩
  · by_cases skipped : ∀ field, n.form = .identifier field .definition →
        n.head.parent = some owner ∧ n.head.slot = some .id
    · rw [Environment.enterMember_other (Bool.eq_false_iff.mpr function) skipped] at ran
      cases ran
      exact .inr (.inr ⟨function, rfl, skipped⟩)
    · push Not at skipped
      obtain ⟨field, form, listed⟩ := skipped
      have listed : ¬ (n.head.parent = some owner ∧ n.head.slot = some .id) :=
        fun both => listed both.1 both.2
      obtain ⟨name, named⟩ := defined field form
      rw [outcome_enterMember_definition form named listed] at ran
      cases ran
      exact .inr (.inl ⟨field, name, form, named, listed, rfl⟩)

theorem enterMember_keeps {l l' : Listing} {after : State} {name : Name} (defined : n.Defined)
    (ran : (p.enterMember recursive owner l n).outcome st = (.ok l', after))
    (there : (Table.get? l name).isSome = true) : (Table.get? l' name).isSome = true := by
  rcases enterMember_ok defined ran with ⟨_, type, inner, rfl, _⟩ | ⟨_, other, _, _, _, rfl⟩ |
    ⟨_, rfl, _⟩
  · rw [Table.get?_put]
    split
    · rfl
    · exact there
  · rw [Table.get?_putNew]
    split
    · rfl
    · exact there
  · exact there

theorem enterMember_shows {l l' : Listing} {after : State} {name : Name} (defined : n.Defined)
    (ran : (p.enterMember recursive owner l n).outcome st = (.ok l', after))
    (shows : Shows owner name n) : (Table.get? l' name).isSome = true := by
  rcases enterMember_ok defined ran with ⟨function, type, inner, rfl, _⟩ |
    ⟨field', name', form', named', _, rfl⟩ | ⟨plain, _, skipped⟩ <;>
    rcases shows with ⟨function', same⟩ | ⟨other, field, spelled, form, named, same⟩
  · rw [Table.get?_put, if_pos same.symm]
    rfl
  · rw [Node.kind_of_form form] at function
    cases function
  · rw [Node.kind_of_form form'] at function'
    cases function'
  · obtain ⟨rfl, _⟩ := Form.identifier.inj (form.symm.trans form')
    obtain rfl := Except.ok.inj (named.symm.trans named')
    rw [Table.get?_putNew, if_pos same.symm]
    rfl
  · exact absurd function' plain
  · exact absurd (skipped field form) other

/-- What holds of no members, and with each one of those up to it, holds of the whole listing. -/
theorem listing_induction (formed : p.WellFormed) (lawful : st.Lawful p)
    {motive : List Node → Listing → Prop} {l : Listing} {after : State}
    (inside : n ∈ p.root.preorder)
    (step : ∀ m ∈ n.members, ∀ done l l' middle last, middle.Extends p st → motive done l →
      (p.enterMember recursive n.id l m).outcome middle = (.ok l', last) → motive (done ++ [m]) l')
    (begun : motive [] []) (ran : (p.listing recursive n).outcome st = (.ok l, after)) :
    motive n.members l := by
  rw [Environment.listing_eq_foldlM] at ran
  have fold : ∀ nodes : List Node, (∀ m ∈ nodes, m ∈ n.members) → ∀ done l' middle,
      middle.Extends p st → motive done l' →
      (nodes.foldlM (p.enterMember recursive n.id) l').outcome middle = (.ok l, after) →
      motive (done ++ nodes) l := by
    intro nodes
    induction nodes with
    | nil =>
      intro _ done l' middle _ begun ran
      cases ran
      rwa [List.append_nil]
    | cons m nodes ih =>
      intro listed done l' middle extended begun ran
      rw [List.foldlM_cons] at ran
      obtain ⟨entered, next, first, ran⟩ := InferM.outcome_bind_eq_ok ran
      have member := listed m List.mem_cons_self
      have deep := Node.mem_preorder_of_member member
      have consults : Consults Canonical p.toEnvironment (· ∈ p.root.preorder) (fun _ => True)
          (p.enterMember recursive n.id l' m) :=
        Environment.enterMember_consults (fun d below =>
          Node.preorder_trans (Node.preorder_trans below deep) inside) _ _ _
      have kept := (consults.stable formed lawful middle extended).2
      rw [first] at kept
      have rest := ih (fun d later => listed d (List.mem_cons_of_mem _ later)) (done ++ [m]) entered
        next kept (step m member done l' entered middle next extended begun first) ran
      rwa [List.append_assoc] at rest
  exact fold n.members (fun m member => member) [] [] st (.refl lawful) begun ran

theorem listing_present (formed : p.WellFormed) (lawful : st.Lawful p)
    (inside : n ∈ p.root.preorder) (defined : ∀ m ∈ p.root.preorder, m.Defined) {name : Name}
    (shown : ∃ m ∈ n.members, Shows n.id name m) {l : Listing} {after : State}
    (ran : (p.listing recursive n).outcome st = (.ok l, after)) :
    (Table.get? l name).isSome = true := by
  have present := listing_induction formed lawful inside
    (motive := fun done l => (∃ m ∈ done, Shows n.id name m) → (Table.get? l name).isSome = true)
    (by
      rintro m member done l l' middle last _ begun first ⟨d, listed, shows⟩
      have deep := Node.preorder_trans (Node.mem_preorder_of_member member) inside
      rcases List.mem_append.mp listed with earlier | only
      · exact enterMember_keeps (defined m deep) first (begun ⟨d, earlier, shows⟩)
      · obtain rfl := List.mem_singleton.mp only
        exact enterMember_shows (defined d deep) first shows)
    (by simp) ran
  exact present shown

theorem scope_of_declares {s : ScopeId} {name : Name} (declares : p.scopes.declares name s = true) :
    ∃ scope, p.scopes[s]? = some scope ∧ (Table.get? scope.declared name).isSome = true := by
  unfold Scopes.declares at declares
  split at declares
  · next scope found => exact ⟨scope, found, declares⟩
  · cases declares

theorem home_of_declares {s : ScopeId} {name : Name} (declares : p.scopes.declares name s = true) :
    p.scopes.home s name = s := by
  obtain ⟨scope, found, _⟩ := scope_of_declares declares
  unfold Scopes.home Scopes.chain
  rw [found]
  dsimp only
  rw [List.find?_cons, declares]
  rfl

theorem declares_congr (scopes : Scopes) (s : ScopeId) {name other : Name}
    (same : name.key = other.key) : scopes.declares name s = scopes.declares other s := by
  unfold Scopes.declares Scope.declares
  cases scopes[s]? with
  | none => rfl
  | some scope => simp only [Table.get?_congr _ same]

/-- A name of a scope after some of its members: the last function among them that is shown under the
name decides what it is listed with, and the table of the scope where there is none. -/
inductive Decided (p : Program) (st : State) (s : ScopeId) (name : Name) :
    Option Node → Option Entry → Prop where
  | unlisted : Decided p st s name none none
  | table {entry : Entry} (typed : entry.type = (st.table s).resolve name) :
      Decided p st s name none (some entry)
  | function {f : Node} {entry : Entry} (typed : ((p.listedType f).outcome st).1 = .ok entry.type) :
      Decided p st s name (some f) (some entry)

theorem resolve_home {s : ScopeId} {name other : Name} (declares : p.scopes.declares name s = true)
    (same : other.key = name.key) (st : State) :
    (st.table (p.scopes.home s other)).resolve other = (st.table s).resolve name := by
  rw [home_of_declares (declares_congr p.scopes s same ▸ declares)]
  unfold TypeTable.resolve TypeTable.candidates
  rw [Table.get?_congr _ same]

theorem Decided.enterMember {s : ScopeId} {name : Name} {last : Option Node} {l l' : Listing}
    {middle after : State} (formed : p.WellFormed) (lawful : st.Lawful p)
    (inside : n ∈ p.root.preorder) (defined : n.Defined)
    (declares : p.scopes.declares name s = true) (stands : n.head.scope = s)
    (extended : middle.Extends p st) (decided : p.Decided st s name last (Table.get? l name))
    (ran : (p.enterMember recursive owner l n).outcome middle = (.ok l', after)) :
    p.Decided st s name (if n.isShown name then some n else last) (Table.get? l' name) := by
  rcases enterMember_ok defined ran with
    ⟨function, type, inner, rfl, typed⟩ | ⟨_, other, form, _, _, rfl⟩ | ⟨plain, rfl, _⟩
  · rw [Table.get?_put]
    by_cases same : name.key = n.form.displayName.key
    · have shown : n.isShown name = true := by simp [Node.isShown, function, same]
      have consults : Consults Canonical p.toEnvironment (· ∈ p.root.preorder) (fun _ => True)
          (p.listedType n) := Environment.listedType_consults inside
      rw [if_pos same, if_pos shown]
      exact .function ((consults.stable formed lawful middle extended).1.symm.trans typed)
    · have other : ¬ n.isShown name = true := by simp [Node.isShown, Ne.symm same]
      rwa [if_neg same, if_neg other]
  · have plain : ¬ n.isShown name = true := by
      simp [Node.isShown, Node.kind_of_form form, Form.kind, Kind.isFunction]
    rw [if_neg plain, Table.get?_putNew]
    split
    · next same =>
      rw [← Table.get?_congr l same]
      generalize Table.get? l name = found at decided
      cases decided with
      | unlisted =>
        refine .table ?_
        change (middle.table (p.scopes.home n.head.scope other)).resolve other = _
        rw [stands, State.table_congr extended.tables, resolve_home declares same.symm]
      | table typed => exact .table typed
      | function typed => exact .function typed
    · exact decided
  · have hidden : ¬ n.isShown name = true := by simp [Node.isShown, plain]
    rwa [if_neg hidden]

theorem listing_decided (formed : p.WellFormed) (lawful : st.Lawful p)
    (inside : n ∈ p.root.preorder) (defined : ∀ m ∈ p.root.preorder, m.Defined) {name : Name}
    (declares : p.scopes.declares name n.head.inner = true) {l : Listing} {after : State}
    (ran : (p.listing recursive n).outcome st = (.ok l, after)) :
    p.Decided st n.head.inner name (n.lastShown name) (Table.get? l name) := by
  refine listing_induction formed lawful inside
    (motive := fun done l => p.Decided st n.head.inner name (done.reverse.find? (Node.isShown name))
      (Table.get? l name)) ?_ .unlisted ran
  intro m member done l l' middle last extended begun first
  have deep := Node.preorder_trans (Node.mem_preorder_of_member member) inside
  have entered := begun.enterMember formed lawful deep (defined m deep) declares
    (Node.scope_of_member member) extended first
  rw [List.reverse_append, List.reverse_singleton, List.singleton_append, List.find?_cons]
  cases shown : m.isShown name with
  | true => rwa [shown, if_pos rfl] at entered
  | false => rwa [shown, if_neg Bool.false_ne_true] at entered

theorem listedType_bound {f : Node} {b : Binding} {name : Name} (bound : f.form.binding? = some b)
    (declares : p.scopes.declares b.name b.scope = true) (same : b.name.key = name.key)
    (st : State) : ((p.listedType f).outcome st).1 = .ok ((st.table b.scope).resolve name) := by
  have declares : p.scopes.declares name b.scope = true :=
    declares_congr p.scopes b.scope same ▸ declares
  unfold Environment.listedType
  rw [bound]
  change ((p.nameType b.scope (some b.name.toJson) .definition).outcome st).1 = _
  rw [outcome_definedType p.toEnvironment, resolve_home declares same]

/-- What a listing says of a name of the scope that a node opens. -/
structure Listed (p : Program) (st : State) (owner : Node) (name : Name) (entry : Entry) : Prop where
  /-- It has the type of the table, unless the last function shown under it is bound elsewhere. -/
  here : (∀ f, owner.lastShown name = some f →
      ∃ b, f.form.binding? = some b ∧ b.scope = owner.head.inner) →
    entry.type = (st.table owner.head.inner).resolve name
  /-- This is a function expression under its own name, which is bound in the scope that it opens. -/
  elsewhere : ∀ f b, owner.lastShown name = some f → f.form.binding? = some b →
    b.scope ≠ owner.head.inner → f.kind = .functionExpression ∧ b.scope = f.head.inner ∧
      entry.type = (st.table f.head.inner).resolve name
  unbound : ∀ f, owner.lastShown name = some f → f.form.binding? = none →
    p.typeOf st f = .ok entry.type

theorem Decided.listed {settings : Settings} {tree : Json} (accepted : ofJson settings tree = .ok p)
    {owner : Node} (inside : owner ∈ p.root.preorder) {name : Name} {entry : Entry}
    (decided : p.Decided st owner.head.inner name (owner.lastShown name) (some entry)) :
    p.Listed st owner name entry := by
  have bound : ∀ f b, owner.lastShown name = some f → f.form.binding? = some b →
      entry.type = (st.table b.scope).resolve name ∧ (b.scope = owner.head.inner ∨
        f.kind = .functionExpression ∧ b.scope = f.head.inner) := by
    intro f b last binding
    obtain ⟨member, shown⟩ := Node.shown_of_lastShown last
    have deep := Node.preorder_trans (Node.mem_preorder_of_member member) inside
    obtain ⟨declares, scope⟩ := scope_of_binding accepted deep (Form.mem_bindings binding)
    have same : b.name.key = name.key := by
      rw [← Form.displayName_of_binding binding]
      exact Node.key_of_isShown shown
    rw [last] at decided
    cases decided with
    | function typed =>
      refine ⟨?_, Node.scope_of_member member ▸ scope⟩
      exact Except.ok.inj (typed.symm.trans (listedType_bound binding declares same st))
  refine ⟨?_, ?_, ?_⟩
  · intro here
    cases last : owner.lastShown name with
    | none =>
      rw [last] at decided
      cases decided with
      | table typed => exact typed
    | some f =>
      obtain ⟨b, binding, scope⟩ := here f last
      rw [← scope]
      exact (bound f b last binding).1
  · intro f b last binding other
    obtain ⟨typed, scope⟩ := bound f b last binding
    obtain ⟨expression, opened⟩ := scope.resolve_left other
    exact ⟨expression, opened, opened ▸ typed⟩
  · intro f last none
    rw [last] at decided
    cases decided with
    | function typed =>
      unfold Environment.listedType at typed
      rw [none] at typed
      exact typed

theorem own_of_child {scopes : Nat} {f i : Node} {expression : Bool} {own declarator : Option Binding}
    {field : Option Json} {role : Role} {name : Name} (placed : f.Placed scopes) (filed : f.Filed)
    (form : f.form = .function expression own declarator) (child : i ∈ f.children)
    (stands : i.head.slot = some .id) (identifier : i.form = .identifier field role)
    (named : Name.ofField field = .ok name) : own = some ⟨name, i.head.scope⟩ := by
  have bound := placed.own expression own declarator form
  have held := filed.filed i child .id stands
  cases content : f.content .id with
  | empty => rw [content] at held; cases held
  | many nodes => rw [content] at bound; cases bound
  | one only =>
    have same := filed.eq_of_one content child stands
    have known := Node.binding_of_content_iff.mpr
      ⟨i, field, role, same ▸ content, identifier, named, show i.head.scope =
        (⟨name, i.head.scope⟩ : Binding).scope from rfl⟩
    exact Except.ok.inj (bound.symm.trans known)

/-- A declared function is a member in place of its name, and shows it. -/
theorem shown_of_declared {settings : Settings} {tree : Json}
    (accepted : ofJson settings tree = .ok p)
    (stated : ∀ d ∈ p.root.preorder, d.kind = .statement .variableDeclarator →
      ∀ f ∈ d.children, f.head.slot = some .init → f.kind ≠ .functionDeclaration)
    {owner f i : Node} (opens : owner ∈ p.root.scopeOwners) (around : f ∈ p.root.preorder)
    (listed : i ∈ f.declaredNames) (scope : i.head.scope = owner.head.inner) {field : Option Json}
    {role : Role} {spelled : Name} (form : i.form = .identifier field role)
    (named : Name.ofField field = .ok spelled) : f ∈ owner.members ∧ f.kind.isFunction = true ∧
      f.form.displayName = spelled := by
  have formed := wellFormed_of_ofJson accepted
  have rooted := rooted_of_ofJson accepted
  have kept := kept_of_ofJson accepted
  obtain ⟨child, names⟩ := List.mem_filter.mp listed
  have names : f.Names i := of_decide_eq_true names
  have function : f.kind.isFunction = true := by rw [names.1]; rfl
  obtain ⟨expression, own, declarator, shape⟩ := Node.function_of_kind function
  have mine := own_of_child (formed.placed f around) (kept f around).1 shape child names.2 form named
  obtain ⟨below, unnamed⟩ := rooted.function_below around function
  have unbound : declarator = none := by
    obtain ⟨d, holds, held⟩ := Node.exists_parent below
    obtain ⟨slot, fits⟩ := (kept d holds).2.2 f held
    have bound := fits.declarator expression own declarator shape
    have elsewhere : ¬ (d.kind = .statement .variableDeclarator ∧ slot = .init) := by
      rintro ⟨declares, rfl⟩
      exact stated d holds declares f held fits.slot names.1
    rw [declaratorFor, if_neg elsewhere] at bound
    exact (Except.ok.inj bound).symm
  have nested := (rooted.nested f around).child i child
  rw [if_pos names] at nested
  refine ⟨rooted.member_of_owner opens below unnamed (nested.symm.trans scope), function, ?_⟩
  rw [shape, mine, unbound]
  rfl

/-- The only name that is skipped is the own name of a function expression. -/
theorem own_of_skipped {settings : Settings} {tree : Json}
    (accepted : ofJson settings tree = .ok p) {owner i : Node} (opens : owner ∈ p.root.scopeOwners)
    (below : i ∈ p.root.descendants)
    (plain : i ∉ owner.declaredNames) {field : Option Json} {spelled : Name}
    (form : i.form = .identifier field .definition) (named : Name.ofField field = .ok spelled)
    (parent : i.head.parent = some owner.id) (stands : i.head.slot = some .id) :
    ∃ declarator, owner.form = .function true (some ⟨spelled, i.head.scope⟩) declarator := by
  have formed := wellFormed_of_ofJson accepted
  have kept := kept_of_ofJson accepted
  obtain ⟨q, around, child⟩ := Node.exists_parent below
  have known := Option.some.inj (parent.symm.trans ((kept q around).1.parent i child))
  obtain rfl := formed.eq_of_id (mem_of_owner opens) around known
  obtain ⟨slot, fits⟩ := (kept owner around).2.2 i child
  obtain rfl := Option.some.inj (fits.slot.symm.trans stands)
  have defining := (owner.kind.role_eq_definition_iff _ _).mp (fits.role field _ form).symm
  rcases List.mem_cons.mp opens with rfl | opens
  · rw [(rooted_of_ofJson accepted).kind] at defining
    cases defining
  · have function := (Node.mem_functionsAmong_children.mp opens).2
    obtain ⟨expression, own, declarator, shape⟩ := Node.function_of_kind function
    have mine := own_of_child (formed.placed owner around) (kept owner around).1 shape child stands
      form named
    cases expression with
    | true => exact ⟨declarator, mine ▸ shape⟩
    | false =>
      have declaration : owner.kind = .functionDeclaration := Node.kind_of_form shape
      exact absurd (List.mem_filter.mpr ⟨child, decide_eq_true ⟨declaration, stands⟩⟩) plain

/-- Every name that a scope declares is shown by a member, apart from the own name of the function
that opens the scope. -/
theorem shown_of_declares {settings : Settings} {tree : Json}
    (accepted : ofJson settings tree = .ok p)
    (stated : ∀ d ∈ p.root.preorder, d.kind = .statement .variableDeclarator →
      ∀ f ∈ d.children, f.head.slot = some .init → f.kind ≠ .functionDeclaration)
    {owner : Node} (opens : owner ∈ p.root.scopeOwners) {name : Name}
    (declares : p.scopes.declares name owner.head.inner = true)
    (other : ∀ own declarator, owner.form = .function true (some own) declarator →
      own.name.key ≠ name.key) : ∃ m ∈ owner.members, Shows owner.id name m := by
  have rooted := rooted_of_ofJson accepted
  have entered := entered_of_ofJson accepted
  obtain ⟨i, member, defines⟩ :=
    (entered.declares_iff (wellFormed_of_ofJson accepted) _ name).mp declares
  obtain ⟨scope, field, spelled, form, named, same⟩ :=
    Node.enters_iff.mp ((entered.enters i member _ name).mpr defines)
  by_cases declared : ∃ f ∈ p.root.preorder, i ∈ f.declaredNames
  · obtain ⟨f, around, listed⟩ := declared
    obtain ⟨shown, function, display⟩ :=
      shown_of_declared accepted stated opens around listed scope form named
    exact ⟨f, shown, .inl ⟨function, display ▸ same⟩⟩
  · push Not at declared
    have below : i ∈ p.root.descendants := by
      rcases Node.mem_preorder.mp member with rfl | below
      · cases (Node.kind_of_form form).symm.trans rooted.kind
      · exact below
    refine ⟨i, rooted.member_of_owner opens below declared scope, .inr ⟨?_, field, spelled, form,
      named, same⟩⟩
    rintro ⟨parent, stands⟩
    obtain ⟨declarator, shape⟩ := own_of_skipped accepted opens below
      (declared owner (mem_of_owner opens)) form named parent stands
    exact other _ _ shape same

/-- A listing of a scope can be given exactly if all functions without a name that it shows can be
typed. Where no declared function is the value of a declarator, it has an entry for every name that
the scope declares, apart from the own name of a function expression. The entry has the type that
the table of the scope gives unless the last function shown under the name is bound elsewhere. -/
theorem listing_agrees {settings : Settings} {tree : Json} (accepted : ofJson settings tree = .ok p)
    (stated : ∀ d ∈ p.root.preorder, d.kind = .statement .variableDeclarator →
      ∀ f ∈ d.children, f.head.slot = some .init → f.kind ≠ .functionDeclaration)
    (reached : p.Reached st) {owner : Node} (opens : owner ∈ p.root.scopeOwners)
    (recursive : Bool) :
    ((∃ l, ((p.listing recursive owner).outcome st).1 = .ok l) ↔
      ∀ f ∈ if recursive then owner.descendants else owner.members, f.kind.isFunction = true →
        f.form.binding? = none → ∃ d, p.typeOf st f = .ok d) ∧
    ∀ l, ((p.listing recursive owner).outcome st).1 = .ok l →
      ∀ scope, p.scopes[owner.head.inner]? = some scope →
        ∀ name, (Table.get? scope.declared name).isSome = true →
          (∀ own declarator, owner.form = .function true (some own) declarator →
            own.name.key ≠ name.key) →
          ∃ entry, Table.get? l name = some entry ∧ p.Listed st owner name entry := by
  have formed := wellFormed_of_ofJson accepted
  have rooted := rooted_of_ofJson accepted
  have lawful := reached.lawful formed
  have inside := mem_of_owner opens
  have defined : ∀ m ∈ p.root.preorder, m.Defined := fun m member =>
    (kept_of_ofJson accepted m member).2.1
  refine ⟨listing_succeeds_iff formed rooted lawful inside defined recursive, ?_⟩
  intro l answered scope found name declared other
  have ran : (p.listing recursive owner).outcome st =
      (.ok l, ((p.listing recursive owner).outcome st).2) := Prod.ext answered rfl
  have declares : p.scopes.declares name owner.head.inner = true := by
    unfold Scopes.declares
    rw [found]
    exact declared
  have shown := shown_of_declares accepted stated opens declares other
  obtain ⟨entry, present⟩ := Option.isSome_iff_exists.mp
    (listing_present formed lawful inside defined shown ran)
  have decided := listing_decided formed lawful inside defined declares ran
  rw [present] at decided
  exact ⟨entry, present, decided.listed accepted inside⟩

open Raw in
/-- In `var x = 1; (function f() {}); function f(x) { return x; } var g = function h() {};
for (function q() {};;) {} var k = 1; (function k() {}); (function () {});` a declaration comes after
an expression of its name, and an expression after a variable of its name. -/
def listed : Json :=
  program [
    declaration "x" (literal (.int 1)),
    expression (node "FunctionExpression" (("id", identifier "f") :: returning [])),
    node "FunctionDeclaration" [("id", identifier "f"), ("params", .list [identifier "x"]),
      ("body", node "BlockStatement" [("body", .list
        [node "ReturnStatement" [("argument", identifier "x")]])])],
    declaration "g" (node "FunctionExpression" (("id", identifier "h") :: returning [])),
    node "ForStatement" [("init", function "q" []),
      ("body", node "BlockStatement" [("body", .list [])])],
    declaration "k" (literal (.int 1)),
    expression (node "FunctionExpression" (("id", identifier "k") :: returning [])),
    expression (closure [])]

theorem listed_agrees : ∃ p, ofJson .standard listed = .ok p ∧
    ∃ final, p.infer.outcome p.start = (.ok 1, final) ∧
      ∃ l, ((p.listing true p.root).outcome final).1 = .ok l ∧
        l.map (fun entry => entry.1.fieldName) = ["x", "f", "g", "q", "k", "(anonymous)"] ∧
        (∀ name ∈ ["x", "f", "g", "q"], ∃ entry, Table.get? l (.text name) = some entry ∧
          entry.type = (final.table 0).resolve (.text name)) ∧
        ∃ entry, Table.get? l (.text "k") = some entry ∧
          entry.type = (final.table 5).resolve (.text "k") ∧
          (final.table 5).resolve (.text "k") ≠ (final.table 0).resolve (.text "k") := by
  have run : ∃ p, ofJson .standard listed = .ok p ∧
      (∀ d ∈ p.root.preorder, d.kind = .statement .variableDeclarator →
        ∀ f ∈ d.children, f.head.slot = some .init → f.kind ≠ .functionDeclaration) ∧
      p.root.head.inner = 0 ∧
      (∃ n, (p.infer.outcome p.start).1 = .ok n ∧ n = 1) ∧
      (∃ l, ((p.listing true p.root).outcome (p.infer.outcome p.start).2).1 = .ok l ∧
        l.map (fun entry => entry.1.fieldName) = ["x", "f", "g", "q", "k", "(anonymous)"]) ∧
      (∀ name ∈ ["x", "f", "g", "q", "k"], p.scopes.declares (.text name) 0 = true) ∧
      (∀ name ∈ ["x", "f", "g", "q"], ∀ f ∈ p.root.lastShown (.text name),
        f.form.binding?.map Binding.scope = some 0) ∧
      ((p.root.lastShown (.text "k")).bind fun f => f.form.binding?.map Binding.scope) = some 5 ∧
      ((p.infer.outcome p.start).2.table 5).resolve (.text "k") ≠
        ((p.infer.outcome p.start).2.table 0).resolve (.text "k") := by
    decide +kernel
  obtain ⟨p, accepted, stated, inner, ⟨_, returned, rfl⟩, ⟨l, answered, shown⟩, declared, here,
    elsewhere, differs⟩ := run
  have ran : p.infer.outcome p.start = (.ok 1, (p.infer.outcome p.start).2) := Prod.ext returned rfl
  have kind := (wellFormed_of_ofJson accepted).root_form
  obtain ⟨_, agrees⟩ := listing_agrees accepted stated (.inferred .start) List.mem_cons_self true
  have entries : ∀ name ∈ ["x", "f", "g", "q", "k"], ∃ entry,
      Table.get? l (.text name) = some entry ∧
        p.Listed (p.infer.outcome p.start).2 p.root (.text name) entry := by
    intro name member
    obtain ⟨scope, found, declares⟩ := scope_of_declares (declared name member)
    exact agrees l answered scope (inner ▸ found) (.text name) declares
      (fun own declarator function => by rw [kind] at function; cases function)
  refine ⟨p, accepted, _, ran, l, answered, shown, ?_, ?_⟩
  · intro name member
    obtain ⟨entry, present, listed⟩ := entries name (List.mem_append_left ["k"] member)
    have typed := listed.here fun f last =>
      inner ▸ Option.map_eq_some_iff.mp (here name member f last)
    exact ⟨entry, present, inner ▸ typed⟩
  · obtain ⟨entry, present, listed⟩ := entries "k" (by simp)
    obtain ⟨f, last, bound⟩ := Option.bind_eq_some_iff.mp elsewhere
    obtain ⟨b, binding, scope⟩ := Option.map_eq_some_iff.mp bound
    obtain ⟨_, opened, typed⟩ := listed.elsewhere f b last binding (by rw [scope, inner]; decide)
    rw [← opened, scope] at typed
    exact ⟨entry, present, typed, differs⟩

open Raw in
/-- In `var x = 1; (function x() {});` the function is shown under the name of the variable. -/
def concealed : Json :=
  program [
    declaration "x" (literal (.int 1)),
    expression (node "FunctionExpression" (("id", identifier "x") :: returning []))]

open Raw in
/-- In `var a = 1; (function () { return a ?? a; });` the function cannot be typed. -/
def untyped : Json :=
  program [
    declaration "a" (literal (.int 1)),
    expression (closure [node "LogicalExpression"
      [("operator", .text "??"), ("left", identifier "a"), ("right", identifier "a")]])]

/-- After inference, in a program without declared functions, a listing need not show a name with the
type of the table, and need not be given at all. -/
theorem listing_may_disagree :
    (¬ ∀ settings tree p k final, ofJson settings tree = .ok p →
      (∀ f ∈ p.root.preorder, f.kind ≠ .functionDeclaration) →
      p.infer.outcome p.start = (.ok k, final) → ∀ owner ∈ p.root.scopeOwners, ∀ recursive l,
        ((p.listing recursive owner).outcome final).1 = .ok l →
        ∀ scope, p.scopes[owner.head.inner]? = some scope →
          ∀ name, (Table.get? scope.declared name).isSome = true →
            (∀ own declarator, owner.form = .function true (some own) declarator →
              own.name.key ≠ name.key) →
            (Table.get? l name).map Entry.type =
              some ((final.table owner.head.inner).resolve name)) ∧
    ¬ ∀ settings tree p k final, ofJson settings tree = .ok p →
      (∀ f ∈ p.root.preorder, f.kind ≠ .functionDeclaration) →
      p.infer.outcome p.start = (.ok k, final) → ∀ owner ∈ p.root.scopeOwners, ∀ recursive,
        ∃ l, ((p.listing recursive owner).outcome final).1 = .ok l := by
  constructor
  · intro agrees
    have run : ∃ p, ofJson .standard concealed = .ok p ∧
        (∀ f ∈ p.root.preorder, f.kind ≠ .functionDeclaration) ∧ p.root.head.inner = 0 ∧
        (∃ n, (p.infer.outcome p.start).1 = .ok n ∧ n = 1) ∧
        (p.scopes[0]?.bind fun scope => Table.get? scope.declared (.text "x")) = some 3 ∧
        ∃ l, ((p.listing false p.root).outcome (p.infer.outcome p.start).2).1 = .ok l ∧
          (Table.get? l (.text "x")).map Entry.type ≠
            some (((p.infer.outcome p.start).2.table 0).resolve (.text "x")) := by
      decide +kernel
    obtain ⟨p, accepted, plain, inner, ⟨_, returned, rfl⟩, declared, l, answered, differs⟩ := run
    have ran : p.infer.outcome p.start = (.ok 1, (p.infer.outcome p.start).2) := Prod.ext returned rfl
    have kind := (wellFormed_of_ofJson accepted).root_form
    obtain ⟨scope, found, declared⟩ := Option.bind_eq_some_iff.mp declared
    have same := agrees _ _ p _ _ accepted plain ran p.root List.mem_cons_self false l answered scope
      (by rw [inner]; exact found) (.text "x") (by rw [declared]; rfl)
      (fun own declarator function => by rw [kind] at function; cases function)
    rw [inner] at same
    exact differs same
  · intro given
    have run : ∃ p, ofJson .standard untyped = .ok p ∧
        (∀ f ∈ p.root.preorder, f.kind ≠ .functionDeclaration) ∧
        (∃ n, (p.infer.outcome p.start).1 = .ok n ∧ n = 1) ∧
        ((p.listing false p.root).outcome (p.infer.outcome p.start).2).1.isOk = false := by
      decide +kernel
    obtain ⟨p, accepted, plain, ⟨_, returned, rfl⟩, fails⟩ := run
    have ran : p.infer.outcome p.start = (.ok 1, (p.infer.outcome p.start).2) := Prod.ext returned rfl
    obtain ⟨l, answered⟩ := given _ _ p _ _ accepted plain ran p.root List.mem_cons_self false
    rw [answered] at fails
    cases fails

end Program

end ScriptTypes
