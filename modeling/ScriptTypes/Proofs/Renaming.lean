import Mathlib.Logic.Equiv.Basic
import ScriptTypes.Proofs.Answers
import ScriptTypes.Proofs.Tree.Raw
import ScriptTypes.Proofs.Twin.Reading

/-! The names of variables do not matter: a tree in which all of them are renamed makes a twin
program. Labels, the names of members and the keys of objects name no variables and stay as they
are, unless they are computed. -/

namespace ScriptTypes

namespace Renaming

variable {r : Renaming}

def ofTexts (f : String → String) (injective : f.Injective) (array : f "Array" = "Array") :
    Renaming where
  apply
    | .text s => .text (f s)
    | name => name
  key_eq_iff a b := by
    have text : ∀ s, (Name.text s).key = .text s := fun _ => rfl
    have back : ∀ s (name : Name), Name.text s = name.key ↔ name = .text s := by
      intro s name
      rw [eq_comm, Name.key_eq_text_iff]
    cases a <;> cases b <;> simp [text, back, Name.key_eq_text_iff, injective.eq_iff]
  array := congrArg Name.text array

def exchange (a b : String) (first : a ≠ "Array") (second : b ≠ "Array") : Renaming :=
  ofTexts (Equiv.swap a b) (Equiv.injective _) (Equiv.swap_apply_of_ne_of_ne first.symm second.symm)

def value (r : Renaming) (raw : Json) : Json :=
  match Name.ofJson? raw with
  | some name => (r name).toJson
  | none => raw

def kindOf (fields : List (String × Json)) : Option Kind :=
  match fields.lookup "type" with
  | some (.text s) => Kind.ofText? s
  | _ => none

def slotOf (kind : Kind) (key : String) : Option Slot := kind.slots.find? fun slot => slot.text = key

mutual
/-- The tree with its variables renamed, where identifiers have this role. -/
def renamed (r : Renaming) (role : Role) : Json → Json
  | .list items => .list (renamedItems r role items)
  | .object fields => .object (renamedFields r role (kindOf fields) (Json.object fields).isComputed fields)
  | raw => raw
termination_by structural raw => raw
def renamedItems (r : Renaming) (role : Role) : List Json → List Json
  | [] => []
  | item :: items => renamed r role item :: renamedItems r role items
termination_by structural items => items
/-- Renames the name of an identifier that is no label, and what the slots of other nodes hold. -/
def renamedFields (r : Renaming) (role : Role) (kind : Option Kind) (computed : Bool) :
    List (String × Json) → List (String × Json)
  | [] => []
  | (key, value) :: fields =>
    (key,
      match kind with
      | none => value
      | some .identifier => if key = "name" ∧ role ≠ .label then r.value value else value
      | some kind =>
        match slotOf kind key with
        | some slot => renamed r (kind.role computed slot) value
        | none => value) :: renamedFields r role kind computed fields
termination_by structural fields => fields
end

def tree (r : Renaming) (program : Json) : Json := r.renamed .reference program

theorem renamed_null (role : Role) : r.renamed role .null = .null := by simp [renamed]

def renamedField (r : Renaming) (role : Role) (kind : Option Kind) (computed : Bool) (key : String)
    (value : Json) : Json :=
  match kind with
  | none => value
  | some .identifier => if key = "name" ∧ role ≠ .label then r.value value else value
  | some kind =>
    match slotOf kind key with
    | some slot => renamed r (kind.role computed slot) value
    | none => value

theorem renamedFields_cons (role : Role) (kind : Option Kind) (computed : Bool) (key : String)
    (value : Json) (fields : List (String × Json)) :
    renamedFields r role kind computed ((key, value) :: fields) =
      (key, r.renamedField role kind computed key value) ::
        renamedFields r role kind computed fields := by
  rw [renamedFields.eq_def]
  rfl

theorem lookup_renamedFields (role : Role) (kind : Option Kind) (computed : Bool) (key : String)
    (fields : List (String × Json)) :
    (renamedFields r role kind computed fields).lookup key =
      (fields.lookup key).map (r.renamedField role kind computed key) := by
  induction fields with
  | nil => rfl
  | cons field fields ih =>
    obtain ⟨other, value⟩ := field
    rw [renamedFields_cons, List.lookup_cons, List.lookup_cons]
    by_cases here : key = other
    · subst here
      simp only [beq_self_eq_true, Option.map_some]
    · simp only [beq_false_of_ne here, ih]

/-- Keys that are read as data, whatever the node is. -/
theorem renamedField_data {role : Role} {kind : Option Kind} {computed : Bool} {key : String}
    (data : ∀ slot : Slot, slot.text ≠ key) (other : key ≠ "name") (value : Json) :
    r.renamedField role kind computed key value = value := by
  have none : ∀ kind, slotOf kind key = .none := by
    intro kind
    simp only [slotOf, List.find?_eq_none]
    intro slot _
    simpa using data slot
  unfold renamedField
  split
  · rfl
  · rw [if_neg fun named => other named.1]
  · rw [none]

theorem slotOf_text {kind : Kind} {slot : Slot} (held : slot ∈ kind.slots) :
    slotOf kind slot.text = some slot := by
  revert slot
  cases kind with
  | statement kind => cases kind <;> decide
  | _ => decide

theorem renamedField_slot {role : Role} {kind : Kind} {computed : Bool} {slot : Slot}
    (held : slot ∈ kind.slots) (value : Json) :
    r.renamedField role (some kind) computed slot.text value =
      r.renamed (kind.role computed slot) value := by
  unfold renamedField
  split
  · next none => cases none
  · next same =>
    cases same
    cases held
  · next same =>
    cases same
    rw [slotOf_text held]

theorem ofField_value (field : Option Json) :
    Name.ofField (field.map r.value) = (Name.ofField field).map r := by
  cases field with
  | none => rfl
  | some raw =>
    simp only [Option.map_some, Name.ofField, value]
    cases known : Name.ofJson? raw with
    | none => simp [known, Except.map]
    | some name =>
      have back : Name.ofJson? (r name).toJson = some (r name) := by cases r name <;> rfl
      simp [back, Except.map]

section

variable {fields : List (String × Json)} {kind : Kind}

theorem kindOf_of_isOf (is : (Json.object fields).IsOf kind) : kindOf fields = some kind := by
  have type : fields.lookup "type" = some (.text kind.text) := is
  rw [kindOf, type]
  exact kind.ofText?_text

theorem get?_renamed (role : Role) {key : String} (data : ∀ slot : Slot, slot.text ≠ key)
    (other : key ≠ "name") : (r.renamed role (.object fields)).get? key = fields.lookup key := by
  change (renamedFields r role _ _ fields).lookup key = _
  rw [lookup_renamedFields]
  cases fields.lookup key with
  | none => rfl
  | some value => exact congrArg some (renamedField_data data other value)

theorem renamed_agrees (is : (Json.object fields).IsOf kind) (slot : Option Slot) (role : Role) :
    Json.Agree r slot role kind (.object fields) (r.renamed role (.object fields)) := by
  have data : ∀ key ∈ ["type", "loc", "computed", "operator", "regex"],
      (r.renamed role (.object fields)).get? key = (Json.object fields).get? key := by
    intro key listed
    apply get?_renamed
    · simp only [List.mem_cons, List.not_mem_nil, or_false] at listed
      rcases listed with rfl | rfl | rfl | rfl | rfl <;> intro slot <;> cases slot <;> decide
    · rintro rfl
      simp at listed
  have field : ∀ key, (r.renamed role (.object fields)).get? key =
      (fields.lookup key).map (r.renamedField role (some kind) (Json.object fields).isComputed key) := by
    intro key
    change (renamedFields r role (kindOf fields) _ fields).lookup key = _
    rw [lookup_renamedFields, kindOf_of_isOf is]
  constructor
  case left => exact is
  case right => exact (data "type" (by simp)).trans is
  case located =>
    unfold Json.Located
    rw [data "loc" (by simp)]
    exact id
  case computed => rw [Json.isComputed, data "computed" (by simp), Json.isComputed]
  case operator =>
    intro _
    rw [data "operator" (by simp)]
  case name =>
    rintro rfl
    by_cases label : role = .label
    · have same : (r.renamed role (.object fields)).get? "name" = (Json.object fields).get? "name" := by
        rw [field]
        cases found : fields.lookup "name" <;>
          simp [Json.get?, Json.fields, found, renamedField, label]
      exact .identifier (fun other => absurd label other) fun _ _ => same
    · have renames : (r.renamed role (.object fields)).get? "name" =
          ((Json.object fields).get? "name").map r.value := by
        rw [field]
        cases found : fields.lookup "name" <;>
          simp [Json.get?, Json.fields, found, renamedField, label]
      refine .identifier (fun _ => ?_) fun same => absurd same label
      rw [renames, ofField_value]
  case literal =>
    rintro rfl
    have same : (r.renamed role (.object fields)).get? "value" = (Json.object fields).get? "value" := by
      rw [field]
      cases found : fields.lookup "value" <;>
        simp [Json.get?, Json.fields, found, renamedField, slotOf, Kind.slots]
    rw [same, data "regex" (by simp)]
    exact .same (by simp) (by simp)

/-- A node is renamed to a twin if what its slots hold is. -/
theorem object_twin (is : (Json.object fields).IsOf kind) (slot : Option Slot) (role : Role)
    (each : ∀ inner ∈ kind.slots, ∀ role, Json.Twin r (some inner) role
      ((fields.lookup inner.text).getD .null) (r.renamed role ((fields.lookup inner.text).getD .null))) :
    Json.Twin r slot role (.object fields) (r.renamed role (.object fields)) := by
  refine .node (renamed_agrees is slot role) ?_
  intro inner held
  have renames : ((renamedFields r role (kindOf fields) (Json.object fields).isComputed fields).lookup
      inner.text).getD .null = r.renamed (kind.role (Json.object fields).isComputed inner)
        ((fields.lookup inner.text).getD .null) := by
    rw [lookup_renamedFields, kindOf_of_isOf is]
    cases fields.lookup inner.text with
    | none => exact (renamed_null _).symm
    | some value => exact renamedField_slot held value
  rw [renames]
  exact each inner held _

end

mutual
/-- What can be read is renamed to a twin. -/
theorem renamed_twin : ∀ (raw : Json) (nested : Bool) (slot : Option Slot) (role : Role),
    (∀ child ∈ (if nested then raw.single else raw.values), child.Known ∧ child.Sound) →
    Json.Twin r slot role raw (r.renamed role raw)
  | .null, _, slot, role, _ => by
    rw [renamed_null]
    exact .null
  | .list items, true, slot, role, sound => by
    obtain ⟨⟨kind, ⟨⟩, _⟩, _⟩ := sound (.list items) (List.mem_singleton.mpr rfl)
  | .list items, false, slot, role, sound => by
    rw [renamed]
    exact renamedItems_twin items slot role sound
  | .object fields, nested, slot, role, sound => by
    have itself : (if nested then (Json.object fields).single else (Json.object fields).values) =
        [.object fields] := by
      cases nested <;> rfl
    rw [itself, List.forall_mem_singleton] at sound
    obtain ⟨⟨kind, is, _⟩, sound⟩ := sound
    rw [is.sound_iff] at sound
    refine object_twin is slot role fun inner held role => ?_
    exact lookup_twin inner.text fields (some inner) role fun child inside =>
      (sound.2.1 inner held child inside).2
  | .bool _, nested, _, _, sound | .int _, nested, _, _, sound | .double _, nested, _, _, sound
  | .text _, nested, _, _, sound => by
    obtain ⟨⟨kind, ⟨⟩, _⟩, _⟩ := sound _ (by cases nested <;> exact List.mem_singleton.mpr rfl)
termination_by structural raw => raw
theorem lookup_twin (key : String) : ∀ (fields : List (String × Json)) (slot : Option Slot)
    (role : Role),
    (∀ child ∈ ((fields.lookup key).getD .null).values, child.Known ∧ child.Sound) →
    Json.Twin r slot role ((fields.lookup key).getD .null)
      (r.renamed role ((fields.lookup key).getD .null))
  | [], slot, role, sound => by
    change Json.Twin r slot role .null (r.renamed role .null)
    rw [renamed_null]
    exact .null
  | (other, value) :: fields, slot, role, sound => by
    rw [List.lookup_cons] at sound ⊢
    by_cases here : key = other
    · rw [here, beq_self_eq_true] at sound ⊢
      exact renamed_twin value false slot role sound
    · rw [beq_false_of_ne here] at sound ⊢
      exact lookup_twin key fields slot role sound
termination_by structural fields => fields
theorem renamedItems_twin : ∀ (items : List Json) (slot : Option Slot) (role : Role),
    (∀ child ∈ items.flatMap Json.single, child.Known ∧ child.Sound) →
    Json.Twin r slot role (.list items) (.list (renamedItems r role items))
  | [], slot, role, _ => .nil
  | item :: items, slot, role, sound => by
    rw [List.flatMap_cons, List.forall_mem_append] at sound
    rw [renamedItems]
    exact .cons (renamed_twin item true slot role sound.1) (renamedItems_twin items slot role sound.2)
termination_by structural items => items
end

theorem tree_twin {program : Json} (is : program.IsOf (.statement .program)) (sound : program.Sound) :
    Json.Twin r none .reference program (r.tree program) := by
  cases program with
  | object fields =>
    rw [is.sound_iff] at sound
    refine object_twin is none .reference fun inner held role => ?_
    exact lookup_twin inner.text fields (some inner) role fun child inside =>
      (sound.2.1 inner held child inside).2
  | _ => cases is

end Renaming

theorem SameAnswer.mapError_eq {α : Type} {answer answer' : Except Failure α}
    (same : SameAnswer Eq answer answer') :
    answer'.mapError Failure.cause = answer.mapError Failure.cause := by
  cases same with
  | ok equal => rw [equal]
  | error cause => exact congrArg Except.error cause.symm

namespace Program

variable {r : Renaming} {p p' : Program}

def inferred (p : Program) : State := (p.infer.outcome p.start).2

/-- The second program is inferred as the first one is, under other names. -/
structure InferredAlike (r : Renaming) (p p' : Program) : Prop where
  /-- As many passes are made, or inference fails for the same cause. -/
  outcome : (p'.infer.outcome p'.start).1.mapError Failure.cause =
    (p.infer.outcome p.start).1.mapError Failure.cause
  candidates : p'.inferred.tables = p.inferred.tables.map (Table.rename r)
  scopes : p.scopes.Twin r p'.scopes
  /-- Nodes that correspond have the same types, or none for the same cause. -/
  types : List.Forall₂ (fun n n' => n'.id = n.id ∧ n'.kind = n.kind ∧
      (p'.typeOf p'.inferred n').mapError Failure.cause =
        (p.typeOf p.inferred n).mapError Failure.cause)
    p.root.preorder p'.root.preorder

theorem Twin.inferredAlike (twin : p.Twin r p') : p.InferredAlike r p' := by
  obtain ⟨answer, ended⟩ := twin.infer _ _ twin.start
  refine ⟨answer.mapError_eq, ended.tables, twin.environment.scopes, ?_⟩
  refine twin.root.preorder.imp fun n n' node => ?_
  have typed := (typeOf_twin twin.environment node _ _ ended).1
  exact ⟨node.head.id, node.kind, typed.mapError_eq⟩

theorem InferredAlike.passes (alike : p.InferredAlike r p') {passes : Nat}
    (passed : (p.infer.outcome p.start).1 = .ok passes) :
    (p'.infer.outcome p'.start).1 = .ok passes := by
  have same := alike.outcome
  rw [passed] at same
  cases answer : (p'.infer.outcome p'.start).1 with
  | error failure =>
    rw [answer] at same
    cases same
  | ok n =>
    rw [answer] at same
    cases same
    rfl

/-- What variables are called does not matter: with all of them renamed, a program is accepted and
inferred as it was. -/
theorem infer_renamed (r : Renaming) {settings : Settings} {tree : Json}
    (accepted : ofJson settings tree = .ok p) :
    ∃ p', ofJson settings (r.tree tree) = .ok p' ∧ p.InferredAlike r p' := by
  obtain ⟨root, read, _⟩ := ofJson_eq_ok accepted
  obtain ⟨last, read⟩ := Node.ofJson_eq_ok read
  obtain ⟨is, sound⟩ := (readProgram_succeeds tree _).mp ⟨_, read⟩
  obtain ⟨p', accepted', twin⟩ := ofJson_twin (Renaming.tree_twin is sound) accepted
  exact ⟨p', accepted', twin.inferredAlike⟩

open Raw in
/-- The tree of `list.push(item); var list = []; var item = y; var y = 1;`, with names for `item` and
`list`. -/
def pushing (item list : String) : Json :=
  program [
    expression (node "CallExpression"
      [("callee", property (identifier list) "push"), ("arguments", .list [identifier item])]),
    declaration list (array []),
    declaration item (identifier "y"),
    declaration "y" (literal (.int 1))]

/-- Variables may be called as the member is: exchanging `push` and `x` leaves the member alone. It
takes three passes for the type of the number to come back to the list. -/
theorem pushing_renamed : ∃ p p', ofJson .standard (pushing "push" "x") = .ok p ∧
    ofJson .standard (pushing "x" "push") = .ok p' ∧
    (p'.infer.outcome p'.start).1 = .ok 3 ∧
    p'.inferred.tables = #[[(.text "push", [.arrayOf .int]), (.text "y", [.int]),
      (.text "x", [.int])]] ∧
    p.InferredAlike (.exchange "push" "x" (by decide) (by decide)) p' := by
  have run : ∃ p, ofJson .standard (pushing "push" "x") = .ok p ∧
      (∃ n, (p.infer.outcome p.start).1 = .ok n ∧ n = 3) ∧
      p.inferred.tables = #[[(.text "x", [.arrayOf .int]), (.text "y", [.int]),
        (.text "push", [.int])]] := by
    decide +kernel
  obtain ⟨p, accepted, ⟨_, passed, rfl⟩, tables⟩ := run
  obtain ⟨p', accepted', alike⟩ :=
    infer_renamed (.exchange "push" "x" (by decide) (by decide)) accepted
  refine ⟨p, p', accepted, accepted', alike.passes passed, ?_, alike⟩
  rw [alike.candidates, tables]
  decide +kernel

end Program

end ScriptTypes
