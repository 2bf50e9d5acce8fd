import ScriptTypes.Inference.Hints
import ScriptTypes.Proofs.Inference.Consulting

/-! Apart from functions that are bound to a name, what a node contributes to a pass is made of
consultations and of offers for names of the tree. `Teaches` says that of a computation; its
postcondition also speaks of whether some offer was accepted, and all that nodes teach answers just
that. -/

namespace ScriptTypes

open Descriptor (Ample)

def Site (env : Environment) (asked : Node → Prop) (s : ScopeId) (name : Name) : Prop :=
  ∃ n field role, asked n ∧ n.form = .identifier field role ∧ role ≠ .label ∧
    Name.ofField field = .ok name ∧ s = env.scopes.home n.head.scope name

/-- The computation asks and offers. The flag in the postcondition says whether an offer was
accepted. -/
inductive Teaches (sort : Descriptor → Prop) (env : Environment) (asked : Node → Prop) :
    {α : Type} → (α → Bool → Prop) → InferM α → Prop where
  | read {α : Type} {P : α → Prop} {Q : α → Bool → Prop} {m : InferM α} :
      Consults sort env asked P m → (∀ a, P a → Q a false) → Teaches sort env asked Q m
  | offer {Q : Bool → Bool → Prop} {s : ScopeId} {name : Name} {d : Descriptor} :
      Site env asked s name → sort d → (∀ accepted, Q accepted accepted) →
      Teaches sort env asked Q (liftM (env.scopes.offer s name d))
  | bind {α β : Type} {P : α → Bool → Prop} {Q : β → Bool → Prop} {m : InferM α}
      {f : α → InferM β} :
      Teaches sort env asked P m →
      (∀ a earlier, P a earlier →
        Teaches sort env asked (fun b later => Q b (earlier || later)) (f a)) →
      Teaches sort env asked Q (m >>= f)

abbrev Tells (answer accepted : Bool) : Prop := answer = accepted

namespace Teaches

variable {sort : Descriptor → Prop} {env : Environment} {asked : Node → Prop} {α β : Type}

theorem mono {more : Node → Prop} {Q : α → Bool → Prop} {m : InferM α}
    (teaches : Teaches sort env asked Q m) (wider : ∀ n, asked n → more n) :
    Teaches sort env more Q m := by
  induction teaches with
  | read consults holds => exact read (consults.mono wider) holds
  | offer site sorted holds =>
    obtain ⟨n, field, role, member, rest⟩ := site
    exact offer ⟨n, field, role, wider n member, rest⟩ sorted holds
  | bind _ _ first next => exact bind first next

theorem pure {Q : α → Bool → Prop} {a : α} (holds : Q a false) :
    Teaches sort env asked Q (Pure.pure a) := read (.pure holds) fun _ holds => holds

theorem fault {Q : α → Bool → Prop} (f : Fault) : Teaches sort env asked Q (InferM.fault f) :=
  read (P := fun _ => False) (.fault f) fun _ impossible => impossible.elim

/-- What comes after a consultation decides alone. -/
theorem after {P : α → Prop} {Q : β → Bool → Prop} {m : InferM α} {f : α → InferM β}
    (consults : Consults sort env asked P m) (next : ∀ a, P a → Teaches sort env asked Q (f a)) :
    Teaches sort env asked Q (m >>= f) := by
  refine bind (P := fun a accepted => P a ∧ accepted = false)
    (read consults fun a holds => ⟨holds, rfl⟩) ?_
  rintro a _ ⟨holds, rfl⟩
  exact next a holds

theorem join {m : InferM Bool} (earlier : Bool) (teaches : Teaches sort env asked Tells m) :
    Teaches sort env asked (fun answer later => Tells answer (earlier || later)) (do
      let answer ← m
      return earlier || answer) := by
  refine bind teaches ?_
  rintro answer _ rfl
  refine pure ?_
  simp [Tells]

theorem choose {condition : Prop} [Decidable condition] {first : InferM Bool}
    {rest : Bool → InferM Bool} (told : Teaches sort env asked Tells first)
    (next : ∀ answer, Teaches sort env asked (fun last later => Tells last (answer || later))
      (rest answer)) :
    Teaches sort env asked Tells (if condition then first >>= rest else rest false) := by
  split
  · refine bind told ?_
    rintro answer _ rfl
    exact next answer
  · exact next false

theorem both {first second : InferM Bool} (left : Teaches sort env asked Tells first)
    (right : Teaches sort env asked Tells second) :
    Teaches sort env asked Tells (do
      let a ← first
      let b ← second
      return a || b) := by
  refine bind left ?_
  rintro a _ rfl
  exact join a right

end Teaches

namespace Environment

variable {sort : Descriptor → Prop} {env : Environment} {asked : Node → Prop}

theorem typeIn_consults {content : Content Node} (inside : ∀ n ∈ content.toList, asked n) :
    Consults sort env asked sort (env.typeIn content) := by
  refine .bind (.sole inside) ?_
  intro n member
  exact .type member fun _ sorted => sorted

theorem hintIdentifier_teaches {n : Node} {d : Descriptor} (member : asked n)
    (sorted : sort d) : Teaches sort env asked Tells (env.hintIdentifier n d) := by
  unfold hintIdentifier
  split
  · next field role form =>
    unfold hintName
    split
    · exact .pure rfl
    · next other =>
      refine .after (.ofFault fun name named => named) ?_
      intro name named
      exact .offer ⟨n, field, role, member, form, other, named, rfl⟩ sorted fun _ => rfl
  · exact .pure rfl

theorem indexedName_consults {node : Node} (computed : Bool)
    (inside : ∀ slot, ∀ c ∈ (node.content slot).toList, asked c) :
    Consults sort env asked (fun found => ∀ object, found = some object → asked object)
      (env.indexedName node computed) := by
  have none : Consults sort env asked (fun found : Option Node => ∀ object, found = some object →
      asked object) (pure none) := .pure fun _ impossible => by cases impossible
  unfold indexedName
  split
  · next object held =>
    have member : asked object := inside .object object (by rw [held]; exact List.mem_singleton.mpr rfl)
    split
    · refine .bind (typeIn_consults (inside .property)) fun index _ => ?_
      split
      · exact none
      · refine .bind (.type member fun _ sorted => sorted) fun type _ => ?_
        split
        · exact none
        · refine .pure ?_
          intro other same
          cases same
          exact member
    · exact none
  · exact none

theorem hint_teaches (ample : Ample sort) {node : Node} {d : Descriptor} (member : asked node)
    (inside : ∀ slot, ∀ c ∈ (node.content slot).toList, asked c) (sorted : sort d) :
    Teaches sort env asked Tells (env.hint node d) := by
  unfold hint
  split
  · exact hintIdentifier_teaches member sorted
  · next computed _ =>
    refine .after (indexedName_consults computed inside) ?_
    intro found known
    cases found with
    | none => exact .pure rfl
    | some object =>
      dsimp only
      split
      · exact .pure rfl
      · exact hintIdentifier_teaches (known object rfl) (ample.array sorted)
  · split
    · exact .pure rfl
    · exact .fault .notExpression

section

variable (closed : ∀ n, asked n → ∀ c ∈ n.children, asked c)

include closed

theorem asked_content {node : Node} (member : asked node) (slot : Slot) :
    ∀ c ∈ (node.content slot).toList, asked c :=
  fun c held => closed node member c (Node.child_of_content held).1

theorem methodCall_receiver {callee : Content Node} (inside : ∀ n ∈ callee.toList, asked n)
    {receiver : Content Node} {method : Json}
    (called : methodCall callee = .ok (some (receiver, method))) :
    ∀ n ∈ receiver.toList, asked n := by
  unfold methodCall at called
  split at called
  · next node =>
    have member := inside node (List.mem_singleton.mpr rfl)
    split at called
    · cases named : memberName false (node.content .property) with
      | error fault => rw [named] at called; cases called
      | ok found =>
        rw [named] at called
        cases found with
        | none => cases called
        | some name =>
          cases called
          exact asked_content closed member .object
    · cases called
  · cases called

theorem loopTarget_consults {left : Content Node} (inside : ∀ n ∈ left.toList, asked n) :
    Consults sort env asked (fun target => ∀ n ∈ target.toList, asked n) (loopTarget left) := by
  unfold loopTarget
  split
  · next node =>
    have member := inside node (List.mem_singleton.mpr rfl)
    split
    · next declarator _ _ held =>
      have declared : asked declarator := by
        refine asked_content closed member .declarations declarator ?_
        rw [held]
        exact List.mem_cons_self
      split
      · exact .pure (asked_content closed declared .id)
      · exact .fault .noSuchSlot
    · exact .fault .notList
    · exact .pure inside
  · exact .pure inside

variable (ample : Ample sort)

include ample

theorem hintIn_teaches {content : Content Node} {d : Descriptor}
    (inside : ∀ n ∈ content.toList, asked n) (sorted : sort d) :
    Teaches sort env asked Tells (env.hintIn content d) := by
  refine .after (.sole inside) ?_
  intro n member
  exact hint_teaches ample member (asked_content closed member) sorted

theorem hintNumber_teaches {operand : Content Node} (inside : ∀ n ∈ operand.toList, asked n) :
    Teaches sort env asked Tells (env.hintNumber operand) := by
  refine .after (typeIn_consults inside) fun type _ => ?_
  split
  · exact .pure rfl
  · exact hintIn_teaches closed ample inside ample.known

theorem constrain_teaches (operation : Operation) {left right : Content Node}
    (leftInside : ∀ n ∈ left.toList, asked n) (rightInside : ∀ n ∈ right.toList, asked n) :
    Teaches sort env asked Tells (env.constrain operation left right) := by
  have matching : Teaches sort env asked Tells (do
      let leftType ← env.typeIn left
      let rightType ← env.typeIn right
      if isMatchable leftType ∧ !rightType.isConcrete then env.hintIn right leftType
      else if isMatchable rightType ∧ !leftType.isConcrete then env.hintIn left rightType
      else if !leftType.isConcrete ∧ !rightType.isConcrete then
        let leftChanged ← env.hintIn left .intOrString
        let rightChanged ← env.hintIn right .intOrString
        return leftChanged || rightChanged
      else return false) := by
    refine .after (typeIn_consults leftInside) fun leftType leftSorted => ?_
    refine .after (typeIn_consults rightInside) fun rightType rightSorted => ?_
    split
    · exact hintIn_teaches closed ample rightInside leftSorted
    · split
      · exact hintIn_teaches closed ample leftInside rightSorted
      · split
        · exact .both (hintIn_teaches closed ample leftInside (ample.canonical .intOrString))
            (hintIn_teaches closed ample rightInside (ample.canonical .intOrString))
        · exact .pure rfl
  have numeric : Teaches sort env asked Tells (do
      let leftChanged ← env.hintNumber left
      let rightChanged ← env.hintNumber right
      return leftChanged || rightChanged) :=
    .both (hintNumber_teaches closed ample leftInside) (hintNumber_teaches closed ample rightInside)
  cases operation with
  | plus => exact matching
  | relational => exact matching
  | arithmetic => exact numeric
  | bitwise => exact numeric
  | equality => exact .pure rfl

theorem teachStore_teaches {left right : Content Node} (leftInside : ∀ n ∈ left.toList, asked n)
    (rightInside : ∀ n ∈ right.toList, asked n) :
    Teaches sort env asked Tells (env.teachStore left right) := by
  refine .after (typeIn_consults leftInside) fun leftType leftSorted => ?_
  refine .after (typeIn_consults rightInside) fun rightType rightSorted => ?_
  split
  · exact .pure rfl
  · exact hintIn_teaches closed ample rightInside leftSorted
  · exact hintIn_teaches closed ample leftInside rightSorted

theorem teachCall_teaches {node : Node} (member : asked node) :
    Teaches sort env asked Tells (env.teachCall node) := by
  have inside := asked_content closed member
  refine .after (.ofFault fun call called => called) ?_
  intro call called
  split
  · next receiver method =>
    have known : asked receiver :=
      methodCall_receiver closed (inside .callee) called receiver (List.mem_singleton.mpr rfl)
    split
    · refine .after (P := fun _ => True) (.ofFault fun _ _ => trivial) fun isText _ => ?_
      refine .choose (hintIdentifier_teaches known ample.known) fun marked => ?_
      split
      · split
        · next argument held =>
          have given : asked argument := by
            refine inside .arguments argument ?_
            rw [held]
            exact List.mem_singleton.mpr rfl
          refine .after (.type known fun _ sorted => sorted) fun type _ => ?_
          split
          · refine .after (.type given fun _ sorted => sorted) fun element sorted => ?_
            exact .join marked (hintIdentifier_teaches known (ample.array sorted))
          · exact .join marked (.pure rfl)
        · exact .join marked (.pure rfl)
        · exact .join marked (.fault .notList)
      · exact .join marked (.pure rfl)
    · exact .pure rfl
  · exact .pure rfl

theorem teachLoop_teaches {left : Content Node} (inside : ∀ n ∈ left.toList, asked n) :
    Teaches sort env asked Tells (env.teachLoop left) := by
  refine .after (loopTarget_consults closed inside) fun target known => ?_
  split
  · next node =>
    have member := known node (List.mem_singleton.mpr rfl)
    split
    · exact hint_teaches ample member (asked_content closed member) ample.known
    · exact .pure rfl
  · exact .pure rfl

theorem teach_teaches {node : Node} (member : asked node) :
    Teaches sort env asked Tells (env.teach node) := by
  have inside := asked_content closed member
  unfold teach
  split
  · next operator _ =>
    refine .after (.operation node.head operator _) fun assignment _ => ?_
    split
    · exact constrain_teaches closed ample _ (inside .left) (inside .right)
    · exact teachStore_teaches closed ample (inside .left) (inside .right)
  · next operator _ =>
    refine .after (.operation node.head operator _) fun operation _ => ?_
    exact constrain_teaches closed ample operation (inside .left) (inside .right)
  · next operator _ =>
    refine .after (.requireOperator node.head operator _) fun _ _ => ?_
    exact hintNumber_teaches closed ample (inside .argument)
  · next computed _ =>
    refine .after (indexedName_consults computed inside) fun found known => ?_
    cases found with
    | none => exact .pure rfl
    | some object => exact hintIdentifier_teaches (known object rfl) ample.known
  · exact teachCall_teaches closed ample member
  · exact teachLoop_teaches closed ample (inside .left)
  · exact .pure rfl

end

/-- The function whose type a node records, and the name that it records it on. -/
def recorded? (node : Node) : Option (Node × Binding) :=
  match node.form with
  | .function _ own _ => own.map fun binding => (node, binding)
  | .statement .variableDeclarator =>
    match node.content .init with
    | .one value =>
      match value.form with
      | .function _ _ declarator => declarator.map fun binding => (value, binding)
      | _ => none
    | _ => none
  | _ => none

theorem settle_of_recorded {node function : Node} {binding : Binding}
    (records : recorded? node = some (function, binding)) :
    env.settle node = env.recordFunction function binding := by
  unfold recorded? at records
  split at records
  · next own _ form =>
    cases own with
    | none => cases records
    | some own =>
      cases records
      rw [settle, form]
  · next form =>
    split at records
    · next value held =>
      split at records
      · next declarator inner =>
        cases declarator with
        | none => cases records
        | some declarator =>
          cases records
          rw [settle, form]
          dsimp only
          rw [settleDeclarator, held]
          simp only [inner]
      · cases records
    · cases records
  · cases records

/-- A node that records no function teaches. -/
theorem settle_teaches (closed : ∀ n, asked n → ∀ c ∈ n.children, asked c) (ample : Ample sort)
    {node : Node} (member : asked node) (plain : recorded? node = none) :
    Teaches sort env asked Tells (env.settle node) := by
  have inside := asked_content closed member
  unfold recorded? at plain
  unfold settle
  split
  · next own _ form =>
    rw [form] at plain
    cases own with
    | none => exact .pure rfl
    | some own => cases plain
  · next form =>
    rw [form] at plain
    have records : ∀ value : Content Node, (∀ n ∈ value.toList, asked n) →
        Teaches sort env asked Tells (do
          let target ← InferM.sole (node.content .id)
          if !target.kind.isExpression then InferM.fault .notExpression
          let d ← env.typeIn value
          env.hint target d) := by
      intro value held
      refine .after (.sole (inside .id)) fun target known => ?_
      have offers : Teaches sort env asked Tells (do
          let d ← env.typeIn value
          env.hint target d) := by
        refine .after (typeIn_consults held) fun d sorted => ?_
        exact hint_teaches ample known (asked_content closed known) sorted
      split
      · exact .after (P := fun _ => False) (.fault .notExpression) fun _ impossible => impossible.elim
      · exact offers
    unfold settleDeclarator
    dsimp only at plain ⊢
    cases held : node.content .init with
    | empty => exact .pure rfl
    | one value =>
      rw [held] at plain
      dsimp only at plain ⊢
      split
      · next declarator inner =>
        rw [inner] at plain
        cases declarator with
        | none => exact .fault .notOneNode
        | some declarator => cases plain
      · exact records (.one value) (held ▸ inside .init)
    | many values => exact records (.many values) (held ▸ inside .init)
  · exact teach_teaches closed ample member

end Environment

end ScriptTypes
