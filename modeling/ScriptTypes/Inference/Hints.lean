import ScriptTypes.Inference.Typing

/-! A node teaches its operands: a hint says that an expression probably has a type, and only names
and indexed names can record it. `settle` is what a node contributes to a pass: declarators and
named functions record the types of what they bind, every other node teaches. Each step says whether
a table changed. -/

namespace ScriptTypes

namespace Environment

def hintName (env : Environment) (scope : ScopeId) (name : Option Json) (role : Role)
    (d : Descriptor) : InferM Bool := do
  if role = .label then return false
  let name ← InferM.ofFault (Name.ofField name)
  env.scopes.offer (env.scopes.home scope name) name d

def typeIn (env : Environment) (content : Content Node) : InferM Descriptor := do
  let node ← InferM.sole content
  node.typeOf env

/-- The name that a computed member indexes by an `int`, unless it is known to be a text. -/
def indexedName (env : Environment) (node : Node) (computed : Bool) : InferM (Option Node) := do
  match computed, node.content .object with
  | true, .one object =>
    match object.form with
    | .identifier _ _ =>
      if (← env.typeIn (node.content .property)) ≠ .int then return none
      if (← object.typeOf env) = .string then return none
      return some object
    | _ => return none
  | _, _ => return none

def hintIdentifier (env : Environment) (node : Node) (d : Descriptor) : InferM Bool :=
  match node.form with
  | .identifier name role => env.hintName node.head.scope name role d
  | _ => return false

/-- Hints that a node probably has a type. An element's type is recorded on the indexed name. -/
def hint (env : Environment) (node : Node) (d : Descriptor) : InferM Bool := do
  match node.form with
  | .identifier _ _ => env.hintIdentifier node d
  | .member computed =>
    match ← env.indexedName node computed with
    | some object =>
      if d = .object then return false
      env.hintIdentifier object (.arrayOf d)
    | none => return false
  | _ => if node.kind.isExpression then return false else .fault .notExpression

def hintIn (env : Environment) (content : Content Node) (d : Descriptor) : InferM Bool := do
  let node ← InferM.sole content
  env.hint node d

/-- Types that an unknown operand of `+` or of a comparison takes over from the other. -/
def isMatchable (d : Descriptor) : Bool := d = .int || d = .string

def hintNumber (env : Environment) (operand : Content Node) : InferM Bool := do
  if (← env.typeIn operand) = .double then return false
  env.hintIn operand .int

/-- `+` and comparisons make an unknown side match a known one, or both sides `int|string`;
numeric operators make both sides numbers. -/
def constrain (env : Environment) (operation : Operation) (left right : Content Node) :
    InferM Bool := do
  match operation with
  | .plus | .relational =>
    let leftType ← env.typeIn left
    let rightType ← env.typeIn right
    if isMatchable leftType ∧ !rightType.isConcrete then env.hintIn right leftType
    else if isMatchable rightType ∧ !leftType.isConcrete then env.hintIn left rightType
    else if !leftType.isConcrete ∧ !rightType.isConcrete then
      let leftChanged ← env.hintIn left .intOrString
      let rightChanged ← env.hintIn right .intOrString
      return leftChanged || rightChanged
    else return false
  | .arithmetic | .bitwise =>
    let leftChanged ← env.hintNumber left
    let rightChanged ← env.hintNumber right
    return leftChanged || rightChanged
  | .equality => return false

def teachStore (env : Environment) (left right : Content Node) : InferM Bool := do
  let leftType ← env.typeIn left
  let rightType ← env.typeIn right
  match leftType.compare rightType with
  | .equal => return false
  | .greater => env.hintIn right leftType
  | _ => env.hintIn left rightType

def teachCall (env : Environment) (node : Node) : InferM Bool := do
  match ← InferM.ofFault (methodCall (node.content .callee)) with
  | some (.one receiver, method) =>
    match receiver.form with
    | .identifier _ _ =>
      let isText ← InferM.ofFault (isAmong env.settings.stringMethods (some method))
      let marked ← if isText then env.hintIdentifier receiver .string else pure false
      let pushed ← match method with
        | .text "push" =>
          match node.content .arguments with
          | .many [argument] => do
            if (← receiver.typeOf env).isCollection then
              let element ← argument.typeOf env
              env.hintIdentifier receiver (.arrayOf element)
            else pure false
          | .many _ => pure false
          | _ => .fault .notList
        | _ => pure false
      return marked || pushed
    | _ => return false
  | _ => return false

/-- What a loop over property names binds: its first declarator's name, or its left side. -/
def loopTarget (left : Content Node) : InferM (Content Node) :=
  match left with
  | .one node =>
    match node.form, node.content .declarations with
    | .statement .variableDeclaration, .many (declarator :: _) =>
      if .id ∈ declarator.kind.slots then return declarator.content .id
      else .fault .noSuchSlot
    | .statement .variableDeclaration, .one _ => .fault .notList
    | _, _ => return left
  | _ => return left

def teachLoop (env : Environment) (left : Content Node) : InferM Bool := do
  match ← loopTarget left with
  | .one target => if target.kind.isExpression then env.hint target .string else return false
  | _ => return false

def teach (env : Environment) (node : Node) : InferM Bool := do
  match node.form with
  | .assignment operator =>
    match (← node.head.operation operator Assignment.ofSymbol?).operation? with
    | some operation => env.constrain operation (node.content .left) (node.content .right)
    | none => env.teachStore (node.content .left) (node.content .right)
  | .binary operator =>
    let operation ← node.head.operation operator Operation.ofSymbol?
    env.constrain operation (node.content .left) (node.content .right)
  | .update operator =>
    node.head.requireOperator operator isUpdateSymbol
    env.hintNumber (node.content .argument)
  | .member computed =>
    match ← env.indexedName node computed with
    | some object => env.hintIdentifier object .array
    | none => return false
  | .call => env.teachCall node
  | .statement .forInStatement => env.teachLoop (node.content .left)
  | _ => return false

/-- Records a function's type on a name, if it is the last function bound to that name. A type
that contradicts the recorded one replaces it. -/
def recordFunction (env : Environment) (node : Node) (binding : Binding) : InferM Bool := do
  let s := env.scopes.home binding.scope binding.name
  let last := env.scopes[s]?.bind fun scope => Table.get? scope.functions binding.name
  if last ≠ some node.id then return false
  let derived ← node.typeOf env
  if Candidates.contradicts derived (((← get).table s).candidates binding.name) then
    env.scopes.replace s binding.name derived
  else env.scopes.offer s binding.name derived

def settleDeclarator (env : Environment) (node : Node) : InferM Bool := do
  let record (value : Content Node) : InferM Bool := do
    let target ← InferM.sole (node.content .id)
    if !target.kind.isExpression then .fault .notExpression
    let d ← env.typeIn value
    env.hint target d
  match node.content .init with
  | .empty => return false
  | .one value =>
    match value.form with
    | .function _ _ declarator =>
      match declarator with
      | some binding => env.recordFunction value binding
      | none => .fault .notOneNode
    | _ => record (.one value)
  | values => record values

def settle (env : Environment) (node : Node) : InferM Bool :=
  match node.form with
  | .function _ own _ =>
    match own with
    | some binding => env.recordFunction node binding
    | none => return false
  | .statement .variableDeclarator => env.settleDeclarator node
  | _ => env.teach node

end Environment

end ScriptTypes
