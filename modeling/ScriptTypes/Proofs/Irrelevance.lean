import ScriptTypes.Proofs.Renaming

/-! Two trees resemble each other if their nodes are of the same kinds, hold the same children in
the same slots and agree on operators, on what is computed, on the categories of literals and on
names, labels and plain keys apart. Nothing else in a tree has a say in how it is inferred: not
where its nodes stand in a text, nor what its literals, labels and keys are. -/

namespace ScriptTypes

namespace Json

inductive Category where
  | null
  | bool
  | text
  | whole
  | fraction
  | list
  | object
  deriving DecidableEq, Repr

def category : Json → Category
  | null => .null
  | bool _ => .bool
  | int _ => .whole
  | double x => if x.isIntegral then .whole else .fraction
  | text _ => .text
  | list _ => .list
  | object _ => .object

def literalValue (raw : Json) : Json := (raw.get? "value").getD null

/-- The name of an identifier counts in this slot of a node: it is no label, and no key of a property
unless that is computed. -/
def NameCounts (computed : Bool) (slot : Option Slot) : Prop :=
  slot ≠ some .label ∧ (slot = some .key → computed = true)

/-- The two nodes of this kind agree on what counts of a node in this slot, apart from what their own
slots hold. -/
structure Matches (above : Bool) (slot : Option Slot) (kind : Kind) (raw raw' : Json) : Prop where
  left : raw.IsOf kind
  right : raw'.IsOf kind
  computed : raw'.isComputed = raw.isComputed
  operator : kind ∈ Kind.operating →
    (raw'.get? "operator").getD (.text "") = (raw.get? "operator").getD (.text "")
  regex : kind = .literal → (raw'.get? "regex").isSome = (raw.get? "regex").isSome
  category : kind = .literal → raw'.literalValue.category = raw.literalValue.category
  member : kind = .literal → slot = some .property → ∀ s,
    raw.literalValue = .text s → raw'.literalValue = .text s
  name : kind = .identifier → NameCounts above slot → raw'.get? "name" = raw.get? "name"

/-- In a slot of a node that is computed or not, both values hold the same nodes in the same order, up
to what does not count. Nulls in lists are nothing. -/
inductive Resembles : Bool → Option Slot → Json → Json → Prop where
  | null {computed : Bool} {slot : Option Slot} : Resembles computed slot .null .null
  | nil {computed : Bool} {slot : Option Slot} : Resembles computed slot (.list []) (.list [])
  | cons {computed : Bool} {slot : Option Slot} {item item' : Json} {items items' : List Json} :
      Resembles computed slot item item' → Resembles computed slot (.list items) (.list items') →
      Resembles computed slot (.list (item :: items)) (.list (item' :: items'))
  | nullLeft {computed : Bool} {slot : Option Slot} {items items' : List Json} :
      Resembles computed slot (.list items) (.list items') →
      Resembles computed slot (.list (.null :: items)) (.list items')
  | nullRight {computed : Bool} {slot : Option Slot} {items items' : List Json} :
      Resembles computed slot (.list items) (.list items') →
      Resembles computed slot (.list items) (.list (.null :: items'))
  | node {computed : Bool} {slot : Option Slot} (kind : Kind) {fields fields' : List (String × Json)} :
      Matches computed slot kind (.object fields) (.object fields') →
      (∀ inner ∈ kind.slots, Resembles (Json.object fields).isComputed (some inner)
        ((fields.lookup inner.text).getD .null) ((fields'.lookup inner.text).getD .null)) →
      Resembles computed slot (.object fields) (.object fields')

end Json

def Renaming.identity : Renaming := ⟨id, fun _ _ => .rfl, rfl⟩

theorem Table.rename_identity {α : Type} (t : Table α) : t.rename .identity = t := List.map_id _

namespace LiteralValue

variable {raw raw' : Json}

theorem alike_of_category (same : raw'.category = raw.category) : (ofJson raw).Alike (ofJson raw') := by
  cases raw <;> cases raw' <;> grind [Json.category, ofJson, Alike]

theorem ofJson_eq_of_category (same : raw'.category = raw.category)
    (text : ∀ s, raw = .text s → raw' = .text s) : ofJson raw' = ofJson raw := by
  cases raw <;> cases raw' <;> grind [Json.category, ofJson]

end LiteralValue

theorem Kind.role_of_not_nameCounts {kind : Kind} {computed : Bool} {slot : Slot}
    (held : slot ∈ kind.slots) (ignored : ¬ Json.NameCounts computed (some slot)) :
    kind.role computed slot = .label := by
  have kept : slot = .label ∨ slot = .key ∧ computed = false := by
    simpa [Json.NameCounts, imp_iff_not_or, not_or] using ignored
  rcases kept with rfl | ⟨rfl, rfl⟩
  all_goals
    cases kind with
    | statement kind => cases kind <;> simp [slots, StatementKind.slots, role] at held ⊢
    | _ => simp [slots] at held

namespace Json

variable {above : Bool} {slot : Option Slot} {raw raw' : Json}

theorem values_eq_single (nodes : ∀ child ∈ raw.single, ∃ kind, child.IsOf kind) :
    raw.values = raw.single := by
  cases raw with
  | list items => obtain ⟨kind, ⟨⟩⟩ := nodes _ (List.mem_singleton.mpr rfl)
  | _ => rfl

theorem Matches.agree {kind : Kind} {role : Role} (same : Matches above slot kind raw raw')
    (located : raw'.Located) (ignored : ¬ NameCounts above slot → role = .label) :
    Agree .identity slot role kind raw raw' where
  left := same.left
  right := same.right
  located _ := located
  computed := same.computed
  operator := same.operator
  name is := by
    by_cases counts : NameCounts above slot
    · rw [same.name is counts]
      refine .identifier (fun _ => ?_) fun _ _ => rfl
      cases Name.ofField (raw.get? "name") <;> rfl
    · refine .identifier (fun other => absurd (ignored counts) other) fun _ property => ?_
      refine absurd ?_ counts
      simp [NameCounts, property]
  literal is := by
    rw [same.regex is]
    refine .literal _ (LiteralValue.alike_of_category (same.category is)) fun property => ?_
    exact LiteralValue.ofJson_eq_of_category (same.category is) (same.member is property)

/-- Trees that resemble each other are twins if the second one can be read. -/
theorem Resembles.twin (resembles : Resembles above slot raw raw') :
    ∀ role, (¬ NameCounts above slot → role = .label) →
      (∀ child ∈ raw'.values, (∃ kind, child.IsOf kind) ∧ child.Sound) →
      Twin .identity slot role raw raw' := by
  -- Soundness goes down the second tree along with the induction: locations do not count, but the
  -- reader refuses those that are no numbers.
  induction resembles with
  | null => exact fun _ _ _ => .null
  | nil => exact fun _ _ _ => .nil
  | @cons _ _ _ item' _ items' _ _ first rest =>
    intro role ignored sound
    have split : (Json.list (item' :: items')).values = item'.single ++ (Json.list items').values :=
      List.flatMap_cons
    rw [split, List.forall_mem_append] at sound
    obtain ⟨here, there⟩ := sound
    rw [← values_eq_single fun child inside => (here child inside).1] at here
    exact .cons (first role ignored here) (rest role ignored there)
  | nullLeft _ rest => exact fun role ignored sound => .nullLeft (rest role ignored sound)
  | nullRight _ rest => exact fun role ignored sound => .nullRight (rest role ignored sound)
  | @node _ _ kind _ _ same _ slots =>
    intro role ignored sound
    obtain ⟨_, sound⟩ := sound _ (List.mem_singleton.mpr rfl)
    rw [Json.sound_iff] at sound
    refine .node (same.agree sound.1.located ignored) fun inner held => ?_
    refine slots inner held _ (Kind.role_of_not_nameCounts held) fun child inside => ?_
    obtain ⟨⟨kind, is, _⟩, sound⟩ := sound.2 child ⟨kind, same.right, inner, held, inside⟩
    exact ⟨⟨kind, is⟩, sound⟩

open Raw

theorem Matches.of_plain {kind : Kind} (left : raw.IsOf kind) (right : raw'.IsOf kind)
    (computed : raw'.isComputed = raw.isComputed)
    (plain : kind ∉ .literal :: .identifier :: Kind.operating) : Matches above slot kind raw raw' := by
  simp only [List.mem_cons, not_or] at plain
  obtain ⟨literal, identifier, operating⟩ := plain
  exact ⟨left, right, computed, fun is => absurd is operating, fun is => absurd is literal,
    fun is => absurd is literal, fun is => absurd is literal, fun is => absurd is identifier⟩

theorem identifier_resembles {name name' : String} (same : NameCounts above slot → name' = name) :
    Resembles above slot (identifier name) (identifier name') := by
  refine .node .identifier ⟨rfl, rfl, rfl, fun _ => rfl, nofun, nofun, nofun, ?_⟩ nofun
  intro _ counts
  rw [same counts]

theorem assignment_resembles (name : String) {value value' : Json}
    (same : Resembles false (some .right) value value') :
    Resembles above slot (assignment name value) (assignment name value') := by
  refine .node (.statement .expressionStatement) (.of_plain rfl rfl rfl (by decide)) ?_
  refine List.forall_mem_singleton.mpr ?_
  refine .node .assignmentExpression
    ⟨rfl, rfl, rfl, fun _ => rfl, nofun, nofun, nofun, nofun⟩ ?_
  exact List.forall_mem_cons.mpr ⟨identifier_resembles fun _ => rfl, List.forall_mem_singleton.mpr same⟩

/-- The tree of `label: y = [x]; x = z; z = 1; w = {key: y};`, with names for `label` and `key`, a
value for `1` and further data of that node. -/
def labelling (label key : String) (one : Json) (data : List (String × Json)) : Json :=
  program [
    node "LabeledStatement" [("label", identifier label),
      ("body", assignment "y" (array [identifier "x"]))],
    assignment "x" (identifier "z"),
    assignment "z" (node "Literal" (("value", one) :: data)),
    assignment "w" (node "ObjectExpression" [("properties", .list [node "Property"
      [("key", identifier key), ("value", identifier "y")]])])]

theorem labelling_resembles (label label' key key' : String) {one one' : Json}
    (same : one'.category = one.category) (raw loc : Json) :
    Resembles false none (labelling label key one [])
      (labelling label' key' one' [("raw", raw), ("loc", loc)]) := by
  refine .node (.statement .program) (.of_plain rfl rfl rfl (by decide)) ?_
  refine List.forall_mem_singleton.mpr (.cons ?_
    (.cons (assignment_resembles "x" (identifier_resembles fun _ => rfl))
      (.cons (assignment_resembles "z" (.node .literal ?_ nofun))
        (.cons (assignment_resembles "w" ?_) .nil))))
  · refine .node (.statement .labeledStatement) (.of_plain rfl rfl rfl (by decide)) ?_
    refine List.forall_mem_cons.mpr ⟨identifier_resembles (by simp [NameCounts]), ?_⟩
    refine List.forall_mem_singleton.mpr (assignment_resembles "y" ?_)
    refine .node .arrayExpression (.of_plain rfl rfl rfl (by decide)) ?_
    exact List.forall_mem_singleton.mpr (.cons (identifier_resembles fun _ => rfl) .nil)
  · exact ⟨rfl, rfl, rfl, fun _ => rfl, fun _ => rfl, fun _ => same, nofun, nofun⟩
  · refine .node .objectExpression (.of_plain rfl rfl rfl (by decide)) ?_
    refine List.forall_mem_singleton.mpr (.cons ?_ .nil)
    refine .node (.statement .property) (.of_plain rfl rfl rfl (by decide)) ?_
    refine List.forall_mem_cons.mpr ⟨identifier_resembles ?_, ?_⟩
    · intro counts
      cases counts.2 rfl
    · exact List.forall_mem_singleton.mpr (identifier_resembles fun _ => rfl)

end Json

namespace Program

variable {p p' : Program}

/-- Where a node stands in a text and what its literals, labels and keys are does not matter: programs
whose trees resemble each other are inferred in the same way. -/
theorem infer_resembling {settings : Settings} {tree tree' : Json}
    (resembles : Json.Resembles false none tree tree') (accepted : ofJson settings tree = .ok p)
    (accepted' : ofJson settings tree' = .ok p') :
    p.InferredAlike .identity p' ∧ p'.inferred.tables = p.inferred.tables := by
  obtain ⟨root, read, _⟩ := ofJson_eq_ok accepted'
  obtain ⟨last, read⟩ := Node.ofJson_eq_ok read
  obtain ⟨is, sound⟩ := (readProgram_succeeds tree' _).mp ⟨_, read⟩
  have itself : tree'.values = [tree'] := by
    cases tree' with
    | object fields => rfl
    | _ => cases is
  have twin := resembles.twin .reference (by simp [Json.NameCounts]) (by
    rw [itself, List.forall_mem_singleton]
    exact ⟨⟨_, is⟩, sound⟩)
  obtain ⟨other, also, twin⟩ := ofJson_twin twin accepted
  cases Except.ok.inj (accepted'.symm.trans also)
  have alike := twin.inferredAlike
  refine ⟨alike, alike.candidates.trans ?_⟩
  rw [funext Table.rename_identity]
  exact Array.map_id _

/-- A label may be called as a variable is, and so may a key. It takes three passes for the type of
the number to come back to the array. -/
theorem labelling_inferred : ∃ p p',
    ofJson .standard (Json.labelling "a" "b" (.int 1) []) = .ok p ∧
    ofJson .standard (Json.labelling "y" "z" (.int 20) [("raw", .text "20"), ("loc", .null)]) = .ok p' ∧
    (p'.infer.outcome p'.start).1 = .ok 3 ∧
    p'.inferred.tables = #[[(.text "y", [.arrayOf .int]), (.text "z", [.int]),
      (.text "x", [.int])]] ∧
    p.InferredAlike .identity p' := by
  have run : ∃ p, ofJson .standard (Json.labelling "a" "b" (.int 1) []) = .ok p ∧
      (∃ n, (p.infer.outcome p.start).1 = .ok n ∧ n = 3) ∧
      p.inferred.tables = #[[(.text "y", [.arrayOf .int]), (.text "z", [.int]),
        (.text "x", [.int])]] := by
    decide +kernel
  have run' : ∃ p', ofJson .standard
      (Json.labelling "y" "z" (.int 20) [("raw", .text "20"), ("loc", .null)]) = .ok p' ∧
      p'.nodeCount = 23 := by
    decide +kernel
  obtain ⟨p, accepted, ⟨_, passed, rfl⟩, tables⟩ := run
  obtain ⟨p', accepted', _⟩ := run'
  have same : (Json.int 20).category = (Json.int 1).category := rfl
  obtain ⟨alike, unchanged⟩ := infer_resembling
    (Json.labelling_resembles "a" "y" "b" "z" same (.text "20") .null) accepted accepted'
  exact ⟨p, p', accepted, accepted', alike.passes passed, unchanged.trans tables, alike⟩

end Program

end ScriptTypes
