import ScriptTypes.Proofs.Inference.Passes
import ScriptTypes.Proofs.Twin.Typing

/-! Twin nodes teach the same, so passes over twin programs make the same changes, and inference
ends after as many of them or fails for the same cause. The tables it leaves behind are twins. -/

namespace ScriptTypes

variable {r : Renaming} {env env' : Environment} {n n' : Node} {left left' right right' : Content Node}

theorem typeIn_twin (envs : env.Twin r env') (held : left.Rel (Node.Twin r) left') :
    InStep r Eq (env.typeIn left) (env'.typeIn left') :=
  (InStep.sole held).bind fun _ _ twin => typeOf_twin envs twin

theorem hintIdentifier_twin (envs : env.Twin r env') (twin : n.Twin r n') (d : Descriptor) :
    InStep r Eq (env.hintIdentifier n d) (env'.hintIdentifier n' d) := by
  have form := twin.form
  unfold Environment.hintIdentifier
  rw [twin.head.scope]
  generalize n.form = f at form
  generalize n'.form = f' at form
  cases form with
  | function expression own declarator => exact .pure rfl
  | identifier named shown => exact envs.hintName _ named d
  | literal regex alike shown => exact .pure rfl
  | same _ other =>
    split
    · exact absurd rfl (other _ _)
    · exact .pure rfl

theorem indexedName_twin (envs : env.Twin r env') (twin : n.Twin r n') (computed : Bool) :
    InStep r (Option.Rel (Node.Twin r)) (env.indexedName n computed)
      (env'.indexedName n' computed) := by
  have held := twin.content .object
  have indexed := typeIn_twin envs (twin.content .property)
  unfold Environment.indexedName
  generalize n.content .object = object at held
  generalize n'.content .object = object' at held
  cases computed with
  | false => exact .pure .none
  | true =>
    cases held with
    | empty => exact .pure .none
    | many _ => exact .pure .none
    | @one c c' child =>
      have form := child.form
      dsimp only
      generalize c.form = f at form
      generalize c'.form = f' at form
      cases form with
      | function expression own declarator => exact .pure .none
      | identifier named shown =>
        apply indexed.andThen
        intro index
        split
        · exact .pure .none
        · apply (typeOf_twin envs child).andThen
          intro type
          split
          · exact .pure .none
          · exact .pure (.some child)
      | literal regex alike shown => exact .pure .none
      | same _ other =>
        split
        · exact absurd rfl (other _ _)
        · exact .pure .none

theorem hint_twin (envs : env.Twin r env') (twin : n.Twin r n') (d : Descriptor) :
    InStep r Eq (env.hint n d) (env'.hint n' d) := by
  have form := twin.form
  have kind := twin.kind
  have named := hintIdentifier_twin envs twin d
  have indexed := indexedName_twin envs twin
  unfold Environment.hint
  rw [kind]
  generalize n.form = f at form
  generalize n'.form = f' at form
  cases form with
  | function expression own declarator => exact .ite (.pure rfl) (.fault .notExpression)
  | identifier _ _ => exact named
  | literal regex alike shown => exact .ite (.pure rfl) (.fault .notExpression)
  | same _ other =>
    cases f with
    | identifier field role => exact absurd rfl (other field role)
    | member computed =>
      apply (indexed computed).bind
      intro found found' same
      cases same with
      | none => exact .pure rfl
      | some object => exact .ite (.pure rfl) (hintIdentifier_twin envs object _)
    | _ => exact .ite (.pure rfl) (.fault .notExpression)

theorem hintIn_twin (envs : env.Twin r env') (held : left.Rel (Node.Twin r) left')
    (d : Descriptor) : InStep r Eq (env.hintIn left d) (env'.hintIn left' d) :=
  (InStep.sole held).bind fun _ _ twin => hint_twin envs twin d

theorem hintNumber_twin (envs : env.Twin r env') (held : left.Rel (Node.Twin r) left') :
    InStep r Eq (env.hintNumber left) (env'.hintNumber left') := by
  apply (typeIn_twin envs held).andThen
  intro type
  exact .ite (.pure rfl) (hintIn_twin envs held .int)

/-- What `+` and comparisons do. -/
theorem matching_twin (envs : env.Twin r env') (lefts : left.Rel (Node.Twin r) left')
    (rights : right.Rel (Node.Twin r) right') :
    InStep r Eq (env.constrain .plus left right) (env'.constrain .plus left' right') := by
  apply (typeIn_twin envs lefts).andThen
  intro leftType
  apply (typeIn_twin envs rights).andThen
  intro rightType
  apply InStep.ite (hintIn_twin envs rights leftType)
  apply InStep.ite (hintIn_twin envs lefts rightType)
  apply InStep.ite _ (.pure rfl)
  apply (hintIn_twin envs lefts .intOrString).andThen
  intro leftChanged
  exact (hintIn_twin envs rights .intOrString).andThen fun rightChanged => .pure rfl

theorem constrain_twin (envs : env.Twin r env') (operation : Operation)
    (lefts : left.Rel (Node.Twin r) left') (rights : right.Rel (Node.Twin r) right') :
    InStep r Eq (env.constrain operation left right) (env'.constrain operation left' right') := by
  have numeric : InStep r Eq
      (do return (← env.hintNumber left) || (← env.hintNumber right))
      (do return (← env'.hintNumber left') || (← env'.hintNumber right')) := by
    apply (hintNumber_twin envs lefts).andThen
    intro leftChanged
    exact (hintNumber_twin envs rights).andThen fun rightChanged => .pure rfl
  have matching := matching_twin envs lefts rights
  cases operation with
  | plus => exact matching
  | relational => exact matching
  | arithmetic => exact numeric
  | bitwise => exact numeric
  | equality => exact .pure rfl

theorem teachStore_twin (envs : env.Twin r env') (lefts : left.Rel (Node.Twin r) left')
    (rights : right.Rel (Node.Twin r) right') :
    InStep r Eq (env.teachStore left right) (env'.teachStore left' right') := by
  apply (typeIn_twin envs lefts).andThen
  intro leftType
  apply (typeIn_twin envs rights).andThen
  intro rightType
  split
  · exact .pure rfl
  · exact hintIn_twin envs rights leftType
  · exact hintIn_twin envs lefts rightType

theorem teachCall_twin (envs : env.Twin r env') (twin : n.Twin r n') :
    InStep r Eq (env.teachCall n) (env'.teachCall n') := by
  have given := twin.content .arguments
  unfold Environment.teachCall
  rw [envs.settings]
  generalize n.content .arguments = arguments at given
  generalize n'.content .arguments = arguments' at given
  apply (methodCall_twin (twin.content .callee)).bind
  intro call call' same
  cases same with
  | none => exact .pure rfl
  | @some call call' same =>
    obtain ⟨object, method⟩ := call
    obtain ⟨object', method'⟩ := call'
    obtain ⟨held, rfl⟩ := same
    cases held with
    | empty => exact .pure rfl
    | many _ => exact .pure rfl
    | @one receiver receiver' known =>
      have form := known.form
      dsimp only
      generalize receiver.form = f at form
      generalize receiver'.form = f' at form
      cases form with
      | function expression own declarator => exact .pure rfl
      | literal regex alike shown => exact .pure rfl
      | same _ other =>
        cases f with
        | identifier field role => exact absurd rfl (other field role)
        | _ => exact .pure rfl
      | identifier named shown =>
        apply (InStep.ofFault _).andThen
        intro isText
        apply InStep.choose (hintIdentifier_twin envs known .string)
        intro marked
        have silent : ∀ m : InferM Bool, InStep r Eq m m → InStep r Eq
            (do let pushed ← m; return marked || pushed) (do let pushed ← m; return marked || pushed) :=
          fun m same => same.andThen fun pushed => .pure rfl
        split
        · cases given with
          | empty => exact silent _ (.fault .notList)
          | one _ => exact silent _ (.fault .notList)
          | many each =>
            cases each with
            | nil => exact silent _ (.pure rfl)
            | cons argument rest =>
              cases rest with
              | cons _ _ => exact silent _ (.pure rfl)
              | nil =>
                apply (typeOf_twin envs known).andThen
                intro type
                apply InStep.ite _ (silent _ (.pure rfl))
                apply (typeOf_twin envs argument).andThen
                intro element
                apply (hintIdentifier_twin envs known _).andThen
                intro pushed
                exact .pure rfl
        · exact silent _ (.pure rfl)

theorem loopTarget_twin (held : left.Rel (Node.Twin r) left') :
    InStep r (Content.Rel (Node.Twin r)) (Environment.loopTarget left)
      (Environment.loopTarget left') := by
  have whole : InStep r (Content.Rel (Node.Twin r)) (pure left) (pure left') := .pure held
  unfold Environment.loopTarget
  cases held with
  | empty => exact whole
  | many _ => exact whole
  | @one c c' twin =>
    have form := twin.form
    have declared := twin.content .declarations
    dsimp only
    generalize c.form = f at form
    generalize c'.form = f' at form
    generalize c.content .declarations = declarations at declared
    generalize c'.content .declarations = declarations' at declared
    cases form with
    | same _ _ =>
      cases f with
      | statement kind =>
        cases kind with
        | variableDeclaration =>
          cases declared with
          | empty => exact whole
          | one _ => exact .fault .notList
          | many each =>
            cases each with
            | nil => exact whole
            | cons declarator _ =>
              dsimp only
              rw [declarator.kind]
              exact .ite (.pure (declarator.content .id)) (.fault .noSuchSlot)
        | _ => exact whole
      | _ => exact whole
    | _ => exact whole

theorem teachLoop_twin (envs : env.Twin r env') (held : left.Rel (Node.Twin r) left') :
    InStep r Eq (env.teachLoop left) (env'.teachLoop left') := by
  apply (loopTarget_twin held).bind
  intro target target' same
  cases same with
  | one twin =>
    dsimp only
    rw [twin.kind]
    exact .ite (hint_twin envs twin .string) (.pure rfl)
  | _ => exact .pure rfl

theorem teach_twin (envs : env.Twin r env') (twin : n.Twin r n') :
    InStep r Eq (env.teach n) (env'.teach n') := by
  have heads := twin.head
  have form := twin.form
  have called := teachCall_twin envs twin
  have indexed := indexedName_twin envs twin
  unfold Environment.teach
  generalize n.form = f at form
  generalize n'.form = f' at form
  cases form with
  | function expression own declarator => exact .pure rfl
  | identifier named shown => exact .pure rfl
  | literal regex alike shown => exact .pure rfl
  | same _ _ =>
    cases f with
    | assignment operator =>
      apply (heads.operation operator _).andThen
      intro assignment
      split
      · exact constrain_twin envs _ (twin.content .left) (twin.content .right)
      · exact teachStore_twin envs (twin.content .left) (twin.content .right)
    | binary operator =>
      apply (heads.operation operator _).andThen
      intro operation
      exact constrain_twin envs operation (twin.content .left) (twin.content .right)
    | update operator =>
      apply (heads.operation operator _).andThen
      intro _
      exact hintNumber_twin envs (twin.content .argument)
    | member computed =>
      apply (indexed computed).bind
      intro found found' same
      cases same with
      | none => exact .pure rfl
      | some object => exact hintIdentifier_twin envs object .array
    | call => exact called
    | statement kind =>
      cases kind with
      | forInStatement => exact teachLoop_twin envs (twin.content .left)
      | _ => exact .pure rfl
    | _ => exact .pure rfl

theorem recordFunction_twin (envs : env.Twin r env') (twin : n.Twin r n') (b : Binding) :
    InStep r Eq (env.recordFunction n b) (env'.recordFunction n' (b.rename r)) := by
  rw [Environment.recordFunction_eq, Environment.recordFunction_eq, envs.lastBound, Node.id, Node.id,
    twin.head.id]
  apply InStep.ite _ (.pure rfl)
  exact (typeOf_twin envs twin).andThen fun d => envs.revise b d

theorem settleDeclarator_twin (envs : env.Twin r env') (twin : n.Twin r n') :
    InStep r Eq (env.settleDeclarator n) (env'.settleDeclarator n') := by
  have records : ∀ value value' : Content Node, value.Rel (Node.Twin r) value' →
      InStep r Eq
        (do
          let target ← InferM.sole (n.content .id)
          if !target.kind.isExpression then InferM.fault .notExpression
          let d ← env.typeIn value
          env.hint target d)
        (do
          let target ← InferM.sole (n'.content .id)
          if !target.kind.isExpression then InferM.fault .notExpression
          let d ← env'.typeIn value'
          env'.hint target d) := by
    intro value value' held
    apply (InStep.sole (twin.content .id)).bind
    intro target target' same
    rw [same.kind]
    apply InStep.ite
    · exact (InStep.fault (R := fun _ _ => False) .notExpression).bind fun _ _ none => none.elim
    · apply (typeIn_twin envs held).andThen
      intro d
      exact hint_twin envs same d
  have held := twin.content .init
  unfold Environment.settleDeclarator
  generalize n.content .init = value at held
  generalize n'.content .init = value' at held
  dsimp only
  cases held with
  | empty => exact .pure rfl
  | many each => exact records _ _ (.many each)
  | @one c c' child =>
    have form := child.form
    have recorded := recordFunction_twin envs child
    have plain := records _ _ (.one child)
    dsimp only
    generalize c.form = f at form
    generalize c'.form = f' at form
    cases form with
    | function expression own declarator =>
      cases declarator with
      | none => exact .fault .notOneNode
      | some binding => exact recorded binding
    | identifier named shown => exact plain
    | literal regex alike shown => exact plain
    | same other _ =>
      cases f with
      | function expression own declarator => exact absurd rfl (other expression own declarator)
      | _ => exact plain

theorem settle_twin (envs : env.Twin r env') (twin : n.Twin r n') :
    InStep r Eq (env.settle n) (env'.settle n') := by
  have form := twin.form
  have taught := teach_twin envs twin
  have declared := settleDeclarator_twin envs twin
  have recorded := recordFunction_twin envs twin
  unfold Environment.settle
  generalize n.form = f at form
  generalize n'.form = f' at form
  cases form with
  | function expression own declarator =>
    cases own with
    | none => exact .pure rfl
    | some own => exact recorded own
  | identifier named shown => exact taught
  | literal regex alike shown => exact taught
  | same plain _ =>
    cases f with
    | function expression own declarator => exact absurd rfl (plain expression own declarator)
    | statement kind =>
      cases kind with
      | variableDeclarator => exact declared
      | _ => exact taught
    | _ => exact taught

structure Program.Twin (r : Renaming) (p p' : Program) : Prop where
  environment : p.toEnvironment.Twin r p'.toEnvironment
  root : p.root.Twin r p'.root
  nodeCount : p'.nodeCount = p.nodeCount

theorem Scopes.Twin.size {left right : Scopes} (twin : left.Twin r right) :
    right.size = left.size := by
  apply Nat.le_antisymm
  · rcases twin.found left.size with ⟨_, outside⟩ | ⟨scope, _, inside, _⟩
    · exact Array.getElem?_eq_none_iff.mp outside
    · simp at inside
  · rcases twin.found right.size with ⟨outside, _⟩ | ⟨_, scope, _, inside, _⟩
    · exact Array.getElem?_eq_none_iff.mp outside
    · simp at inside

theorem forgetAll_twin {nodes nodes' : List Node} (twins : List.Forall₂ (Node.Twin r) nodes nodes')
    {left right : State} (states : left.Twin r right) :
    (Program.forgetAll nodes left).Twin r (Program.forgetAll nodes' right) := by
  induction twins generalizing left right with
  | nil => exact states
  | @cons n n' _ _ twin _ ih =>
    have same : n'.id = n.id := twin.head.id
    apply ih
    simpa only [same] using states.forget n.id

namespace Program.Twin

variable {p p' : Program}

theorem settleAll (twin : p.Twin r p') {nodes nodes' : List Node}
    (twins : List.Forall₂ (Node.Twin r) nodes nodes') :
    InStep r Eq (p.settleAll nodes) (p'.settleAll nodes') := by
  induction twins with
  | nil => exact .pure rfl
  | cons here _ ih =>
    apply (settle_twin twin.environment here).andThen
    intro changed
    apply ih.andThen
    intro rest
    exact .pure rfl

theorem pass (twin : p.Twin r p') : InStep r Eq p.pass p'.pass := by
  apply (InStep.modify fun _ _ states => forgetAll_twin twin.root.descendants states).andThen
  intro _
  exact twin.settleAll twin.root.descendants

theorem passLimit (twin : p.Twin r p') : p'.passLimit = p.passLimit := by
  unfold Program.passLimit
  rw [twin.environment.settings, twin.nodeCount]

theorem passes (twin : p.Twin r p') (count done : Nat) :
    InStep r Eq (p.passes count done) (p'.passes count done) := by
  induction count generalizing done with
  | zero =>
    rw [Program.passes, Program.passes, twin.passLimit]
    exact .throw rfl
  | succ count ih =>
    apply twin.pass.andThen
    intro changes
    apply (InStep.modify fun _ _ states => states.record _ _).andThen
    intro _
    exact .ite (.pure rfl) (ih (done + 1))

/-- Inference on twins takes as many passes, or fails for the same cause, and leaves twins behind. -/
theorem infer (twin : p.Twin r p') : InStep r Eq p.infer p'.infer := by
  rw [infer_eq, infer_eq, twin.passLimit]
  apply InStep.andThen
  · apply (twin.settleAll twin.root.descendantsUp).andThen
    intro _
    exact .pure rfl
  · intro _
    apply (twin.passes p.passLimit 0).andThen
    intro count
    apply (InStep.modify fun _ _ states => states.record _ _).andThen
    intro _
    exact .pure rfl

theorem start (twin : p.Twin r p') : p.start.Twin r p'.start where
  tables := by
    simp only [Program.start, State.start, twin.environment.scopes.size, Array.map_replicate]
    rfl
  types := by simp only [Program.start, State.start, twin.nodeCount]

end Program.Twin

end ScriptTypes
