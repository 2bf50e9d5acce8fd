import ScriptTypes.Proofs.Program
import ScriptTypes.Proofs.Tree.Places

/-! What a JSON value has to be like to be read as a program: every node that its slots lead to is
of a known kind, and locations, defined names and the names of functions are well formed. The reader
refuses everything else. -/

namespace ScriptTypes

namespace Json

def IsOf (raw : Json) (kind : Kind) : Prop := raw.get? "type" = some (.text kind.text)

/-- The value is a node that can stand below a program. -/
def Known (raw : Json) : Prop := ∃ kind, raw.IsOf kind ∧ kind ≠ .statement .program

/-- What a value stands for where a node is expected; null is nothing. -/
def single : Json → List Json
  | null => []
  | raw => [raw]

/-- What a value stands for where a node or a list of nodes is expected. -/
def values : Json → List Json
  | list items => items.flatMap single
  | raw => raw.single

def held (raw : Json) (slot : Slot) : List Json := ((raw.get? slot.text).getD null).values

def Holds (parent child : Json) : Prop :=
  ∃ kind, parent.IsOf kind ∧ ∃ slot ∈ kind.slots, child ∈ parent.held slot

inductive Reached (tree : Json) : Json → Prop where
  | root : Reached tree tree
  | child {parent child : Json} (reached : Reached tree parent) (holds : parent.Holds child) :
      Reached tree child

def isNumber : Json → Bool
  | bool _ | int _ | double _ => true
  | _ => false

def isComposite : Json → Bool
  | list _ | object _ => true
  | _ => false

/-- The column that a node starts at is a number, if there is one. -/
def Located (raw : Json) : Prop :=
  ∀ loc start column, raw.get? "loc" = some (.object loc) →
    loc.lookup "start" = some (.object start) → start.lookup "column" = some column →
    column.isNumber = true

/-- The value has a name that a table can hold. -/
def PlainName (raw : Json) : Prop := ∃ name, raw.get? "name" = some name ∧ name.isComposite = false

/-- The slot `id` holds nothing or one identifier. -/
def PlainId (raw : Json) : Prop :=
  (raw.get? "id").getD null = null ∨ ((raw.get? "id").getD null).IsOf .identifier

/-- What a node has to satisfy besides being of a known kind. -/
structure Proper (raw : Json) : Prop where
  located : raw.Located
  defined : ∀ kind, raw.IsOf kind → ∀ slot ∈ kind.definingSlots, ∀ child ∈ raw.held slot,
    child.IsOf .identifier → child.PlainName
  function : ∀ kind, raw.IsOf kind → kind.isFunction = true → raw.PlainId
  declarator : raw.IsOf (.statement .variableDeclarator) → ∀ value ∈ raw.held .init,
    ∀ kind, value.IsOf kind → kind.isFunction = true → raw.PlainId

/-- The value is the tree of a program. -/
structure Grammatical (tree : Json) : Prop where
  root : tree.IsOf (.statement .program)
  known : ∀ parent, tree.Reached parent → ∀ child, parent.Holds child → child.Known
  proper : ∀ raw, tree.Reached raw → raw.Proper

/-- All that the value leads to is as it has to be. -/
def Sound (raw : Json) : Prop :=
  ∀ reached, raw.Reached reached → reached.Proper ∧ ∀ child, reached.Holds child → child.Known

theorem grammatical_iff (tree : Json) :
    tree.Grammatical ↔ tree.IsOf (.statement .program) ∧ tree.Sound := by
  constructor
  · rintro ⟨root, known, proper⟩
    exact ⟨root, fun raw reached => ⟨proper raw reached, known raw reached⟩⟩
  · rintro ⟨root, sound⟩
    exact ⟨root, fun raw reached => (sound raw reached).2, fun raw reached => (sound raw reached).1⟩

namespace Reached

variable {tree parent raw : Json}

theorem trans (outer : tree.Reached parent) (inner : parent.Reached raw) : tree.Reached raw := by
  induction inner with
  | root => exact outer
  | child _ holds ih => exact .child ih holds

/-- What is reached is the value itself or reached through one of its children. -/
theorem through (reached : tree.Reached raw) :
    raw = tree ∨ ∃ child, tree.Holds child ∧ child.Reached raw := by
  induction reached with
  | root => exact .inl rfl
  | child _ holds ih =>
    rcases ih with rfl | ⟨first, below, reached⟩
    · exact .inr ⟨_, holds, .root⟩
    · exact .inr ⟨first, below, .child reached holds⟩

end Reached

theorem sound_iff (raw : Json) :
    raw.Sound ↔ raw.Proper ∧ ∀ child, raw.Holds child → child.Known ∧ child.Sound := by
  constructor
  · intro sound
    obtain ⟨proper, known⟩ := sound raw .root
    refine ⟨proper, ?_⟩
    intro child holds
    exact ⟨known child holds, fun inner reached => sound inner (.trans (.child .root holds) reached)⟩
  · rintro ⟨proper, below⟩ inner reached
    rcases reached.through with rfl | ⟨child, holds, reached⟩
    · exact ⟨proper, fun child holds => (below child holds).1⟩
    · exact (below child holds).2 inner reached

end Json

namespace Kind

theorem ofText?_text (kind : Kind) : ofText? kind.text = some kind := by
  cases kind with
  | statement kind => cases kind <;> rfl
  | _ => rfl

theorem text_of_ofText? {s : String} {kind : Kind} (known : ofText? s = some kind) :
    kind.text = s := by
  have found := List.find?_some known
  exact of_decide_eq_true found

theorem eq_of_text {kind other : Kind} (same : kind.text = other.text) : kind = other := by
  have known := kind.ofText?_text
  rw [same, other.ofText?_text] at known
  exact (Option.some.inj known).symm

theorem definingSlots_subset (kind : Kind) : kind.definingSlots ⊆ kind.slots := by
  cases kind with
  | statement kind => cases kind <;> decide
  | _ => decide

end Kind

namespace Json

theorem IsOf.unique {raw : Json} {kind other : Kind} (is : raw.IsOf kind) (also : raw.IsOf other) :
    kind = other :=
  Kind.eq_of_text (Json.text.inj (Option.some.inj (is.symm.trans also)))

/-- What a node of this kind asks of what stands in one of its slots. -/
structure Permits (raw : Json) (kind : Kind) (slot : Slot) (child : Json) : Prop where
  name : slot ∈ kind.definingSlots → child.IsOf .identifier → child.PlainName
  declarator : kind = .statement .variableDeclarator → slot = .init →
    ∀ inner, child.IsOf inner → inner.isFunction = true → raw.PlainId

/-- All that the slot holds is permitted there and sound. -/
def Fills (raw : Json) (kind : Kind) (slot : Slot) : Prop :=
  ∀ child ∈ raw.held slot, raw.Permits kind slot child ∧ child.Known ∧ child.Sound

/-- Soundness, slot by slot. -/
theorem IsOf.sound_iff {raw : Json} {kind : Kind} (is : raw.IsOf kind) :
    raw.Sound ↔ raw.Located ∧ (∀ slot ∈ kind.slots, raw.Fills kind slot) ∧
      (kind.isFunction = true → raw.PlainId) := by
  rw [raw.sound_iff]
  constructor
  · rintro ⟨⟨located, defined, function, declarator⟩, below⟩
    refine ⟨located, ?_, function kind is⟩
    intro slot member child inside
    refine ⟨⟨?_, ?_⟩, below child ⟨kind, is, slot, member, inside⟩⟩
    · exact fun defining => defined kind is slot defining child inside
    · rintro rfl rfl
      exact declarator is child inside
  · rintro ⟨located, below, function⟩
    refine ⟨⟨located, ?_, ?_, ?_⟩, ?_⟩
    · intro actual also slot defining child inside
      cases is.unique also
      exact (below slot (kind.definingSlots_subset defining) child inside).1.name defining
    · intro actual also
      cases is.unique also
      exact function
    · intro also child inside
      cases is.unique also
      exact (below .init (by decide) child inside).1.declarator rfl rfl
    · rintro child ⟨actual, also, slot, member, inside⟩
      cases is.unique also
      exact (below slot member child inside).2

end Json

theorem map_succeeds {ε α β : Type} (result : Except ε α) (f : α → β) :
    (∃ b, result.map f = .ok b) ↔ ∃ a, result = .ok a := by
  cases result <;> simp [Except.map]

theorem Name.ofField_succeeds (field : Option Json) :
    (∃ name, ofField field = .ok name) ↔ ∃ name, field = some name ∧ name.isComposite = false := by
  cases field with
  | none => simp [ofField]
  | some raw => cases raw <;> simp [ofField, ofJson?, Json.isComposite]

theorem Location.nextColumn_succeeds (column : Json) :
    (∃ next, nextColumn column = .ok next) ↔ column.isNumber = true := by
  cases column <;> simp [nextColumn, Json.isNumber]

theorem Location.ofJson_succeeds (raw : Json) :
    (∃ location, ofJson raw = .ok location) ↔ raw.Located := by
  unfold ofJson Json.Located
  split
  · next loc found =>
    split
    · next start begun =>
      rw [map_succeeds, ofBlocks, map_succeeds, nextColumn_succeeds]
      constructor
      · intro number loc' start' column found' begun' stated
        cases found.symm.trans found'
        cases begun.symm.trans begun'
        rw [stated] at number
        exact number
      · intro numbers
        cases stated : start.lookup "column" with
        | none => rfl
        | some column => exact numbers loc start column found begun stated
    · next other =>
      refine iff_of_true ⟨none, rfl⟩ ?_
      intro loc' start column found' begun
      cases found.symm.trans found'
      exact absurd begun (other start)
  · next other =>
    refine iff_of_true ⟨none, rfl⟩ ?_
    intro loc start column found
    exact absurd found (other loc)

namespace ReadM

variable {α β : Type}

def Succeeds (m : ReadM α) (counter : Counter) : Prop := ∃ result, m counter = .ok result

theorem succeeds_bind {m : ReadM α} {f : α → ReadM β} {counter : Counter} :
    (m >>= f).Succeeds counter ↔
      ∃ a middle, m counter = .ok (a, middle) ∧ (f a).Succeeds middle := by
  constructor
  · rintro ⟨result, ran⟩
    obtain ⟨a, middle, first, rest⟩ := bind_eq_ok.mp ran
    exact ⟨a, middle, first, result, rest⟩
  · rintro ⟨a, middle, first, result, rest⟩
    exact ⟨result, bind_eq_ok.mpr ⟨a, middle, first, rest⟩⟩

theorem succeeds_pure (a : α) (counter : Counter) : (pure a : ReadM α).Succeeds counter :=
  ⟨(a, counter), rfl⟩

theorem succeeds_bind_pure {m : ReadM α} {f : α → β} {counter : Counter} :
    (m >>= fun a => pure (f a)).Succeeds counter ↔ m.Succeeds counter := by
  rw [succeeds_bind]
  constructor
  · rintro ⟨a, middle, ran, _⟩
    exact ⟨(a, middle), ran⟩
  · rintro ⟨⟨a, middle⟩, ran⟩
    exact ⟨a, middle, ran, succeeds_pure (f a) middle⟩

theorem succeeds_ofFault {e : Except Fault α} {counter : Counter} :
    (ofFault e).Succeeds counter ↔ ∃ a, e = .ok a := by
  constructor
  · rintro ⟨result, ran⟩
    obtain ⟨a, ok, _⟩ := ofFault_eq_ok.mp ran
    exact ⟨a, ok⟩
  · rintro ⟨a, ok⟩
    exact ⟨(a, counter), ofFault_eq_ok.mpr ⟨a, ok, rfl⟩⟩

end ReadM

structure Place.Admits (place : Place) (raw : Json) : Prop where
  name : raw.IsOf .identifier → place.role = .definition → raw.PlainName
  declarator : ∀ kind, raw.IsOf kind → kind.isFunction = true →
    ∃ bound, Binding.ofContent place.declarator = .ok bound

theorem Json.IsOf.admits_iff {raw : Json} {kind : Kind} (is : raw.IsOf kind) (place : Place) :
    place.Admits raw ↔ (kind = .identifier → place.role = .definition → raw.PlainName) ∧
      (kind.isFunction = true → ∃ bound, Binding.ofContent place.declarator = .ok bound) := by
  constructor
  · rintro ⟨name, declarator⟩
    exact ⟨fun same => name (same ▸ is), declarator kind is⟩
  · rintro ⟨name, declarator⟩
    refine ⟨fun also => name (is.unique also), ?_⟩
    intro other also
    exact is.unique also ▸ declarator

theorem openNode_succeeds (place : Place) (kind : Kind) (fields : List (String × Json))
    (counter : Counter) : (openNode place kind fields).Succeeds counter ↔
      (Json.object fields).Located ∧
        (kind = .identifier → place.role = .definition → (Json.object fields).PlainName) := by
  have named : (∃ name, Name.ofField (fields.lookup "name") = .ok name) ↔
      (Json.object fields).PlainName := Name.ofField_succeeds _
  rw [← Location.ofJson_succeeds, ← and_imp, ← named]
  constructor
  · intro opened
    obtain ⟨location, _, located, opened⟩ := ReadM.succeeds_bind.mp opened
    obtain ⟨location, located, _⟩ := ReadM.ofFault_eq_ok.mp located
    obtain ⟨id, _, _, opened⟩ := ReadM.succeeds_bind.mp opened
    refine ⟨⟨location, located⟩, ?_⟩
    intro defines
    dsimp only at opened
    rw [if_pos defines] at opened
    obtain ⟨_, _, checked, _⟩ := ReadM.succeeds_bind.mp opened
    cases known : Name.ofField (fields.lookup "name") with
    | error fault => rw [known] at checked; cases checked
    | ok name => exact ⟨name, rfl⟩
  · rintro ⟨⟨location, located⟩, name⟩
    refine ReadM.succeeds_bind.mpr ⟨location, counter, ReadM.ofFault_eq_ok.mpr ⟨_, located, rfl⟩, ?_⟩
    refine ReadM.succeeds_bind.mpr ⟨_, _, rfl, ?_⟩
    dsimp only
    split
    · next defines =>
      obtain ⟨name, known⟩ := name defines
      refine ReadM.succeeds_bind.mpr ⟨(), ⟨counter.node + 1, counter.scope⟩, ?_, ?_⟩
      · rw [known]
        rfl
      · split <;> exact ⟨_, rfl⟩
    · split <;> exact ⟨_, rfl⟩

/-- How what was read of a value stands for it. -/
inductive Mirrors : Json → Content Node → Prop where
  | null : Mirrors .null .empty
  | list (items : List Json) (nodes : List Node) : Mirrors (.list items) (.many nodes)
  | object {fields : List (String × Json)} {n : Node} (kind : (Json.object fields).IsOf n.kind)
      (name : ∀ field role, n.form = .identifier field role → field = fields.lookup "name") :
      Mirrors (.object fields) (.one n)

theorem Mirrors.bound_iff {raw : Json} {content : Content Node} (mirrors : Mirrors raw content)
    (named : ∀ child ∈ raw.values, child.IsOf .identifier → child.PlainName) :
    (∃ bound, Binding.ofContent content = .ok bound) ↔ raw = .null ∨ raw.IsOf .identifier := by
  cases mirrors with
  | null => exact iff_of_true ⟨none, rfl⟩ (.inl rfl)
  | list items nodes =>
    refine iff_of_false ?_ ?_
    · rintro ⟨_, ⟨⟩⟩
    · rintro (⟨⟨⟩⟩ | ⟨⟨⟩⟩)
  | @object fields n kind name =>
    unfold Binding.ofContent
    dsimp only
    split
    · next field role form =>
      have same : n.kind = .identifier := by
        change n.form.kind = _
        rw [form]
        rfl
      have is : (Json.object fields).IsOf .identifier := same ▸ kind
      rw [map_succeeds, Name.ofField_succeeds, name field role form]
      exact iff_of_true (named _ (List.mem_singleton.mpr rfl) is) (.inr is)
    · next other =>
      refine iff_of_false ?_ ?_
      · rintro ⟨_, ⟨⟩⟩
      · rintro (⟨⟨⟩⟩ | is)
        obtain ⟨field, role, form⟩ := Node.identifier_of_kind (kind.unique is)
        exact other field role form

namespace Opening

variable {o : Opening} {r : Reading}

/-- A node can be closed unless it is a function that cannot be bound. -/
theorem close_succeeds : (∃ n, o.close r = .ok n) ↔ (o.kind.isFunction = true →
    (∃ own, Binding.ofContent (r.content .id) = .ok own) ∧
      ∃ declarator, Binding.ofContent o.place.declarator = .ok declarator) := by
  rw [close, map_succeeds]
  constructor
  · rintro ⟨f, formed⟩ function
    obtain ⟨kind, bound⟩ := form_eq_ok formed
    rw [← kind] at function
    cases f with
    | function expression own declarator =>
      obtain ⟨mine, theirs⟩ := bound expression own declarator rfl
      exact ⟨⟨own, mine⟩, declarator, theirs⟩
    | _ => cases function
  · intro bound
    cases kind : o.kind
    case functionDeclaration | functionExpression =>
      obtain ⟨⟨own, mine⟩, declarator, theirs⟩ := bound (by rw [kind]; rfl)
      simp only [form, kind, mine, theirs]
      exact ⟨_, rfl⟩
    all_goals
      simp only [form, kind]
      exact ⟨_, rfl⟩

theorem readSlots_cons (child : Slot → Place → ReadM (Content Node)) (slot : Slot)
    (slots : List Slot) : o.readSlots child (slot :: slots) r =
      child slot (o.childPlace r slot) >>= fun content =>
        o.readSlots child slots (r.add slot content) := by
  simp only [readSlots, List.foldlM_cons, bind_assoc, pure_bind]

end Opening

/-- However it is placed, this reads the value exactly when what the value stands for can stand
there and is sound. -/
structure Recognises (raw : Json) (children : List Json) (read : Place → ReadM (Content Node)) :
    Prop where
  succeeds : ∀ place counter, (read place).Succeeds counter ↔
    ∀ child ∈ children, place.Admits child ∧ child.Known ∧ child.Sound
  mirrors : ∀ place first content last, read place first = .ok (content, last) →
    Mirrors raw content

/-- What each slot of the value holds is recognised, and settled once it is read. -/
structure ReadsSlots (raw : Json) (child : Slot → Place → ReadM (Content Node)) : Prop where
  recognises : ∀ slot,
    Recognises ((raw.get? slot.text).getD .null) (raw.held slot) (child slot)
  settles : ∀ slot, Yields Settled (child slot)

abbrev Opening.raw (o : Opening) : Json := .object o.fields

/-- How far the name of a node is known while these slots are still to be read. -/
structure Opening.Progress (o : Opening) (slots : List Slot) (r : Reading) : Prop where
  distinct : slots.Nodup
  ordered : slots.Pairwise fun earlier later => earlier = .init → later ≠ .id
  awaits : r.Awaits slots
  known : .id ∈ o.kind.definingSlots → .id ∉ slots →
    ((∃ bound, Binding.ofContent (r.content .id) = .ok bound) ↔ o.raw.PlainId)

namespace Opening

variable {o : Opening} {r : Reading} {slot : Slot} {slots : List Slot}

theorem progress_begun (o : Opening) : o.Progress o.kind.slots {} where
  distinct := o.kind.slots_nodup
  ordered := o.kind.slots_ordered
  awaits := Reading.awaits_empty _
  known defining read := absurd (o.kind.definingSlots_subset defining) read

theorem Progress.admits_iff (progress : o.Progress (slot :: slots) r) (child : Json) :
    (o.childPlace r slot).Admits child ↔ o.raw.Permits o.kind slot child := by
  have role : (o.childPlace r slot).role = .definition ↔ slot ∈ o.kind.definingSlots :=
    o.kind.role_eq_definition_iff o.isComputed slot
  have declarator : (∃ bound, Binding.ofContent (o.childPlace r slot).declarator = .ok bound) ↔
      (o.kind = .statement .variableDeclarator → slot = .init → o.raw.PlainId) := by
    unfold childPlace
    dsimp only
    split
    · next value =>
      obtain ⟨kind, rfl⟩ := value
      have read : .id ∉ Slot.init :: slots := by
        intro later
        rcases List.mem_cons.mp later with same | later
        · cases same
        · exact (List.pairwise_cons.mp progress.ordered).1 _ later rfl rfl
      rw [progress.known (by rw [kind]; decide) read]
      exact ⟨fun plain _ _ => plain, fun plain => plain kind rfl⟩
    · next other => exact iff_of_true ⟨none, rfl⟩ fun kind value => absurd ⟨kind, value⟩ other
  constructor
  · rintro ⟨name, bound⟩
    refine ⟨fun defining is => name is (role.mpr defining), ?_⟩
    intro kind value inner is function
    exact declarator.mp (bound inner is function) kind value
  · rintro ⟨name, bound⟩
    refine ⟨fun is defines => name (role.mp defines) is, ?_⟩
    intro inner is function
    exact declarator.mpr fun kind value => bound kind value inner is function

/-- Reading a slot makes the name known if it is the slot of the name, and keeps it otherwise. -/
theorem Progress.add {read : Place → ReadM (Content Node)} {content : Content Node}
    {middle next : Counter} (progress : o.Progress (slot :: slots) r)
    (reads : Recognises ((o.raw.get? slot.text).getD .null) (o.raw.held slot) read)
    (ran : read (o.childPlace r slot) middle = .ok (content, next))
    (stands : ∀ n ∈ content.toList, n.head.slot = some slot) :
    o.Progress slots (r.add slot content) where
  distinct := progress.distinct.of_cons
  ordered := (List.pairwise_cons.mp progress.ordered).2
  awaits := progress.awaits.add progress.distinct stands
  known defining read := by
    by_cases name : slot = .id
    · subst name
      have admitted := (reads.succeeds _ _).mp ⟨_, ran⟩
      have role : (o.childPlace r .id).role = .definition :=
        (o.kind.role_eq_definition_iff o.isComputed .id).mpr defining
      rw [Reading.content_add_self progress.awaits stands]
      exact (reads.mirrors _ _ _ _ ran).bound_iff
        fun child inside is => (admitted child inside).1.name is role
    · have apart : .id ≠ slot := Ne.symm name
      rw [r.content_add_of_ne content apart stands]
      refine progress.known defining ?_
      intro member
      rcases List.mem_cons.mp member with same | member
      · exact apart same
      · exact read member

variable {child : Slot → Place → ReadM (Content Node)}

theorem Progress.add_read (progress : o.Progress (slot :: slots) r) (reads : ReadsSlots o.raw child)
    {content : Content Node} {middle next : Counter}
    (ran : child slot (o.childPlace r slot) middle = .ok (content, next)) :
    o.Progress slots (r.add slot content) :=
  progress.add (reads.recognises slot) ran
    fun n member => (reads.settles slot _ _ _ _ ran n member).1.slot

/-- All slots can be read exactly when each holds what the node permits. -/
theorem Progress.readSlots_succeeds (progress : o.Progress slots r) (reads : ReadsSlots o.raw child)
    (counter : Counter) : (o.readSlots child slots r).Succeeds counter ↔
      ∀ slot ∈ slots, o.raw.Fills o.kind slot := by
  induction slots generalizing r counter with
  | nil => exact iff_of_true (ReadM.succeeds_pure r counter) fun slot none => by cases none
  | cons slot slots ih =>
    have here : (child slot (o.childPlace r slot)).Succeeds counter ↔ o.raw.Fills o.kind slot := by
      simp only [(reads.recognises slot).succeeds, progress.admits_iff, Json.Fills]
    rw [readSlots_cons, ReadM.succeeds_bind, List.forall_mem_cons, ← here]
    constructor
    · rintro ⟨content, next, ran, rest⟩
      exact ⟨⟨_, ran⟩, (ih (progress.add_read reads ran) next).mp rest⟩
    · rintro ⟨⟨⟨content, next⟩, ran⟩, rest⟩
      exact ⟨content, next, ran, (ih (progress.add_read reads ran) next).mpr rest⟩

theorem progress_of_readSlots (reads : ReadsSlots o.raw child) {result : Reading}
    {first last : Counter} (ran : o.readSlots child o.kind.slots {} first = .ok (result, last)) :
    o.Progress [] result :=
  o.readSlots_induction (motive := fun slots r _ => o.Progress slots r)
    (fun _ _ _ _ _ _ progress held => progress.add_read reads held) o.progress_begun ran

/-- Children and name of a node can be read exactly when the node is sound below. -/
theorem finish_succeeds (reads : ReadsSlots o.raw child) (counter : Counter) :
    (o.readSlots child o.kind.slots {} >>= fun r => ReadM.ofFault (o.close r)).Succeeds counter ↔
      (∀ slot ∈ o.kind.slots, o.raw.Fills o.kind slot) ∧
      (o.kind.isFunction = true → o.raw.PlainId ∧
        ∃ bound, Binding.ofContent o.place.declarator = .ok bound) := by
  have closes : ∀ r, o.Progress [] r → ((∃ n, o.close r = .ok n) ↔
      (o.kind.isFunction = true → o.raw.PlainId ∧
        ∃ bound, Binding.ofContent o.place.declarator = .ok bound)) := by
    intro r progress
    rw [close_succeeds]
    refine imp_congr_right fun function => and_congr_left fun _ => ?_
    refine progress.known ?_ List.not_mem_nil
    cases kind : o.kind <;> simp_all [Kind.isFunction, Kind.definingSlots]
  rw [ReadM.succeeds_bind, ← o.progress_begun.readSlots_succeeds reads counter]
  constructor
  · rintro ⟨r, last, ran, closed⟩
    have progress := progress_of_readSlots reads ran
    exact ⟨⟨_, ran⟩, (closes r progress).mp (ReadM.succeeds_ofFault.mp closed)⟩
  · rintro ⟨⟨⟨r, last⟩, ran⟩, bound⟩
    have progress := progress_of_readSlots reads ran
    exact ⟨r, last, ran, ReadM.succeeds_ofFault.mpr ((closes r progress).mpr bound)⟩

end Opening

/-- A node of a known kind is read exactly where it can stand and if it is sound. -/
theorem readNode_succeeds {fields : List (String × Json)} {kind : Kind}
    {child : Slot → Place → ReadM (Content Node)} (reads : ReadsSlots (.object fields) child)
    (is : (Json.object fields).IsOf kind) (place : Place) (counter : Counter) :
    (readNode place kind fields child).Succeeds counter ↔
      place.Admits (.object fields) ∧ (Json.object fields).Sound := by
  have opens := openNode_succeeds place kind fields counter
  have finishes : ∀ o opened, openNode place kind fields counter = .ok (o, opened) →
      ((o.readSlots child kind.slots {} >>= fun r => ReadM.ofFault (o.close r)).Succeeds opened ↔
        (∀ slot ∈ kind.slots, (Json.object fields).Fills kind slot) ∧
        (kind.isFunction = true → (Json.object fields).PlainId ∧
          ∃ bound, Binding.ofContent place.declarator = .ok bound)) := by
    intro o opened ran
    obtain ⟨_, rfl, rfl, rfl, _⟩ := openNode_eq_ok ran
    exact Opening.finish_succeeds reads opened
  rw [is.admits_iff, is.sound_iff]
  constructor
  · intro read
    obtain ⟨o, opened, ran, rest⟩ := ReadM.succeeds_bind.mp read
    obtain ⟨located, name⟩ := opens.mp ⟨_, ran⟩
    obtain ⟨below, function⟩ := (finishes o opened ran).mp rest
    exact ⟨⟨name, fun is => (function is).2⟩, located, below, fun is => (function is).1⟩
  · rintro ⟨⟨name, bound⟩, located, below, plain⟩
    obtain ⟨⟨o, opened⟩, ran⟩ := opens.mpr ⟨located, name⟩
    refine ReadM.succeeds_bind.mpr ⟨o, opened, ran, (finishes o opened ran).mpr ⟨below, ?_⟩⟩
    exact fun is => ⟨plain is, bound is⟩

section

variable {fields : List (String × Json)} {kind : Kind}

theorem readNode_mirrors {child : Slot → Place → ReadM (Content Node)} {place : Place}
    {first last : Counter} {n : Node} (is : (Json.object fields).IsOf kind)
    (ran : readNode place kind fields child first = .ok (n, last)) :
    Mirrors (.object fields) (.one n) := by
  obtain ⟨o, _, opened, ran⟩ := ReadM.bind_eq_ok.mp ran
  obtain ⟨r, _, _, ran⟩ := ReadM.bind_eq_ok.mp ran
  obtain ⟨_, closed, same⟩ := ReadM.ofFault_eq_ok.mp ran
  cases same
  obtain ⟨_, rfl, rfl, rfl, _⟩ := openNode_eq_ok opened
  obtain ⟨f, formed, rfl⟩ := o.close_eq_ok closed
  have kind := (o.form_eq_ok formed).1
  rw [← kind] at is
  refine .object is ?_
  intro field role form
  change f = _ at form
  subst form
  have identifier : o.kind = .identifier := kind.symm
  simp only [Opening.form, identifier] at formed
  cases formed
  rfl

theorem readObject_of_known (is : (Json.object fields).IsOf kind)
    (below : kind ≠ .statement .program) (place : Place)
    (child : Slot → Place → ReadM (Content Node)) :
    readObject place fields child = readNode place kind fields child := by
  have type : fields.lookup "type" = some (.text kind.text) := is
  unfold readObject
  rw [type]
  simp only [Option.getD_some, kind.ofText?_text]

theorem readObject_of_unknown (unknown : ¬ (Json.object fields).Known) (place : Place)
    (child : Slot → Place → ReadM (Content Node)) (counter : Counter) :
    ¬ (readObject place fields child).Succeeds counter := by
  rintro ⟨result, ran⟩
  unfold readObject at ran
  cases type : fields.lookup "type" with
  | none => rw [type] at ran; cases ran
  | some value =>
    rw [type] at ran
    cases value with
    | text name =>
      dsimp only [Option.getD_some] at ran
      cases known : Kind.ofText? name with
      | none => rw [known] at ran; cases ran
      | some kind =>
        have is : (Json.object fields).IsOf kind := by
          change fields.lookup "type" = _
          rw [Kind.text_of_ofText? known, type]
        have program : kind = .statement .program := by
          by_contra below
          exact unknown ⟨kind, is, below⟩
        rw [known, program] at ran
        cases ran
    | _ => cases ran

end

theorem readObject_succeeds {fields : List (String × Json)}
    {child : Slot → Place → ReadM (Content Node)} (reads : ReadsSlots (.object fields) child)
    (place : Place) (counter : Counter) :
    (readObject place fields child).Succeeds counter ↔
      place.Admits (.object fields) ∧ (Json.object fields).Known ∧ (Json.object fields).Sound := by
  by_cases known : (Json.object fields).Known
  · obtain ⟨kind, is, below⟩ := known
    rw [readObject_of_known is below, readNode_succeeds reads is]
    exact and_congr_right fun _ => (and_iff_right ⟨kind, is, below⟩).symm
  · refine iff_of_false (readObject_of_unknown known place child counter) ?_
    exact fun accepted => known accepted.2.1

theorem readObject_mirrors {fields : List (String × Json)}
    {child : Slot → Place → ReadM (Content Node)} {place : Place} {first last : Counter} {n : Node}
    (ran : readObject place fields child first = .ok (n, last)) :
    Mirrors (.object fields) (.one n) := by
  by_cases known : (Json.object fields).Known
  · obtain ⟨kind, is, below⟩ := known
    rw [readObject_of_known is below] at ran
    exact readNode_mirrors is ran
  · exact absurd ⟨_, ran⟩ (readObject_of_unknown known place child first)

theorem recognises_unknown {raw : Json} {children : List Json} {read : Place → ReadM (Content Node)}
    (unknown : ∃ child ∈ children, ¬ child.Known)
    (fails : ∀ place counter, ¬ (read place).Succeeds counter) : Recognises raw children read where
  succeeds place counter := by
    obtain ⟨child, inside, unknown⟩ := unknown
    exact iff_of_false (fails place counter) fun all => unknown (all child inside).2.1
  mirrors place first content last ran := absurd ⟨_, ran⟩ (fails place first)

theorem recognises_nothing : Recognises .null [] fun _ => pure .empty where
  succeeds _ counter := iff_of_true (ReadM.succeeds_pure _ counter) fun child none => by cases none
  mirrors := by
    rintro place first content last ⟨⟩
    exact .null

theorem readsSlots {fields : List (String × Json)}
    (recognises : ∀ slot : Slot, Recognises ((fields.lookup slot.text).getD .null)
      ((fields.lookup slot.text).getD .null).values (readField slot.text fields)) :
    ReadsSlots (.object fields) fun slot inner => readField slot.text fields inner :=
  ⟨recognises, fun slot => readField_yields settled_compositional slot.text fields⟩

mutual
theorem readContent_recognises : ∀ (raw : Json) (nested : Bool),
    Recognises raw (if nested then raw.single else raw.values) (readContent raw nested)
  | .null, nested => by
    have nothing : (if nested then Json.null.single else Json.null.values) = [] := by
      cases nested <;> rfl
    rw [nothing]
    exact recognises_nothing
  | .list items, true => by
    refine recognises_unknown ⟨_, List.mem_singleton.mpr rfl, ?_⟩ ?_
    · rintro ⟨kind, ⟨⟩, _⟩
    · rintro place counter ⟨_, ⟨⟩⟩
  | .list items, false => by
    refine ⟨?_, ?_⟩
    · intro place counter
      rw [readContent, ReadM.succeeds_bind_pure]
      exact readItems_succeeds items place counter
    · intro place first content last ran
      rw [readContent] at ran
      obtain ⟨nodes, _, _, ran⟩ := ReadM.bind_eq_ok.mp ran
      cases ReadM.pure_eq_ok.mp ran
      exact .list items nodes
  | .object fields, nested => by
    have itself : (if nested then (Json.object fields).single else (Json.object fields).values) =
        [.object fields] := by
      cases nested <;> rfl
    rw [itself]
    refine ⟨?_, ?_⟩
    · intro place counter
      rw [readContent, ReadM.succeeds_bind_pure, List.forall_mem_singleton]
      exact readObject_succeeds (readsSlots fun slot => readField_recognises slot.text fields) place
        counter
    · intro place first content last ran
      rw [readContent] at ran
      obtain ⟨n, _, ran, same⟩ := ReadM.bind_eq_ok.mp ran
      cases ReadM.pure_eq_ok.mp same
      exact readObject_mirrors ran
  | .bool _, nested | .int _, nested | .double _, nested | .text _, nested => by
    refine recognises_unknown ⟨_, by cases nested <;> exact List.mem_singleton.mpr rfl, ?_⟩ ?_
    · rintro ⟨kind, ⟨⟩, _⟩
    · rintro place counter ⟨_, ⟨⟩⟩
termination_by structural raw => raw
theorem readField_recognises (key : String) : ∀ fields : List (String × Json),
    Recognises ((fields.lookup key).getD .null) ((fields.lookup key).getD .null).values
      (readField key fields)
  | [] => recognises_nothing
  | (other, value) :: fields => by
    by_cases here : other = key
    · have found : ((other, value) :: fields).lookup key = some value := by
        simp [here]
      have reads : readField key ((other, value) :: fields) = readContent value false := by
        funext place
        rw [readField, if_pos here]
      rw [found, reads]
      exact readContent_recognises value false
    · have found : ((other, value) :: fields).lookup key = fields.lookup key := by
        rw [List.lookup_cons, beq_false_of_ne (Ne.symm here)]
      have reads : readField key ((other, value) :: fields) = readField key fields := by
        funext place
        rw [readField, if_neg here]
      rw [found, reads]
      exact readField_recognises key fields
termination_by structural fields => fields
theorem readItems_succeeds : ∀ (items : List Json) (place : Place) (counter : Counter),
    (readItems items place).Succeeds counter ↔ ∀ child ∈ items.flatMap Json.single,
      place.Admits child ∧ child.Known ∧ child.Sound
  | [], place, counter => iff_of_true (ReadM.succeeds_pure _ counter) fun child none => by cases none
  | item :: items, place, counter => by
    have first := (readContent_recognises item true).succeeds place counter
    rw [readItems, ReadM.succeeds_bind, List.flatMap_cons, List.forall_mem_append]
    constructor
    · rintro ⟨content, middle, ran, rest⟩
      have rest := ReadM.succeeds_bind_pure.mp rest
      exact ⟨first.mp ⟨_, ran⟩, (readItems_succeeds items place middle).mp rest⟩
    · rintro ⟨here, later⟩
      obtain ⟨⟨content, middle⟩, ran⟩ := first.mpr here
      have rest := (readItems_succeeds items place middle).mpr later
      exact ⟨content, middle, ran, ReadM.succeeds_bind_pure.mpr rest⟩
termination_by structural items => items
end

theorem readProgram_succeeds (tree : Json) (counter : Counter) :
    (readProgram tree).Succeeds counter ↔ tree.IsOf (.statement .program) ∧ tree.Sound := by
  by_cases is : tree.IsOf (.statement .program)
  · cases tree with
    | object fields =>
      have type : (Json.object fields).get? "type" = some (.text "Program") := is
      have reads : readProgram (.object fields) = readNode .root (.statement .program) fields
          fun slot inner => readField slot.text fields inner := by
        unfold readProgram
        rw [type]
        rfl
      have stands : Place.root.Admits (.object fields) := by
        refine (is.admits_iff _).mpr ⟨?_, ?_⟩
        · rintro ⟨⟩
        · rintro ⟨⟩
      rw [reads, readNode_succeeds (readsSlots fun slot => readField_recognises slot.text fields) is,
        and_iff_right stands, and_iff_right is]
    | _ => cases is
  · refine iff_of_false ?_ fun sound => is sound.1
    rintro ⟨result, ran⟩
    unfold readProgram at ran
    generalize type : (tree.get? "type").getD .null = value at ran
    split at ran
    · cases found : (Json.object _).get? "type" with
      | none => rw [found] at type; cases type
      | some value =>
        rw [found] at type
        exact is (found.trans (congrArg some type))
    · cases ran

/-- Exactly the trees of programs are read, and everything else is refused. -/
theorem Program.ofJson_eq_ok_iff_grammatical (settings : Settings) (tree : Json) :
    ((∃ p, ofJson settings tree = .ok p) ↔ tree.Grammatical) ∧
      ((∃ failure, ofJson settings tree = .error failure) ↔ ¬ tree.Grammatical) := by
  have accepts : (∃ p, ofJson settings tree = .ok p) ↔ tree.Grammatical := by
    rw [ofJson, map_succeeds, Json.grammatical_iff, ← readProgram_succeeds tree ⟨0, 1⟩]
    exact map_succeeds (readProgram tree ⟨0, 1⟩) Prod.fst
  refine ⟨accepts, ?_⟩
  rw [← accepts]
  cases ofJson settings tree <;> simp

end ScriptTypes
