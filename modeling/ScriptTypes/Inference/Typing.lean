import ScriptTypes.Inference.State
import ScriptTypes.Method
import ScriptTypes.Operator

/-! `Node.typeOf` derives the type of a node from those of its parts and from the tables. Every node
but an identifier remembers its type once it is derived; names always read their table. A rule looks
at its parts in a fixed order and only at those it needs. -/

namespace ScriptTypes

namespace Environment

def nameType (env : Environment) (scope : ScopeId) (name : Option Json) (role : Role) :
    InferM Descriptor := do
  if role = .label then return .object
  let name ← InferM.ofFault (Name.ofField name)
  return ((← get).table (env.scopes.home scope name)).resolve name

end Environment

namespace Head

def operation {α : Type} (h : Head) (operator : Json) (symbol? : String → Option α) : InferM α :=
  let unknown : InferM α := throw (.about (.unknownOperator h.kind.text operator) h.raw)
  match operator with
  | .list _ | .object _ => .fault .compositeKey
  | .text s =>
    match symbol? s with
    | some a => pure a
    | none => unknown
  | _ => unknown

def requireOperator (h : Head) (operator : Json) (accepts : String → Bool) : InferM Unit :=
  h.operation operator fun s => if accepts s then some () else none

def literalType (h : Head) (regex : Bool) (value : LiteralValue) : InferM Descriptor :=
  if regex then pure .object
  else
    match value with
    | .null => pure .object
    | .bool => pure .bool
    | .text _ => pure .string
    | .integral => pure .int
    | .fractional => pure .double
    | .list => throw (.about (.missingRule h.kind.text "literal of type list") h.raw)
    | .object => throw (.about (.missingRule h.kind.text "literal of type dict") h.raw)

end Head

/-- The name of a member, when the tree shows it. An identifier named null shows none. -/
def memberName (computed : Bool) (property : Content Node) : Except Fault (Option Json) :=
  match property with
  | .one node =>
    match node.form with
    | .identifier name _ =>
      if computed then .ok none
      else
        match name with
        | none => .error .nameMissing
        | some .null => .ok none
        | some name => .ok (some name)
    | .literal _ (.text s) => .ok (some (.text s))
    | _ => .ok none
  | _ => .ok none

/-- Whether a member's name is one of these. A member that shows no name goes by null, and a list
or an object cannot be looked up. -/
def isAmong (names : List Name) (name : Option Json) : Except Fault Bool :=
  match Name.ofJson? (name.getD .null) with
  | some name => .ok (name.isAmong names)
  | none => .error .compositeKey

def textMethod? : Json → Except Fault (Option Descriptor)
  | .text s => .ok (stringMethod? s)
  | .list _ | .object _ => .error .compositeKey
  | _ => .ok none

/-- The object and the method name of a callee `object.method`. -/
def methodCall (callee : Content Node) : Except Fault (Option (Content Node × Json)) :=
  match callee with
  | .one node =>
    match node.form with
    | .member false =>
      (memberName false (node.content .property)).map fun method =>
        method.map fun method => (node.content .object, method)
    | _ => .ok none
  | _ => .ok none

/-- The result of a method call, if the method is well known for its receiver. -/
def methodResult (receiver : Descriptor) (method : Json) : Except Fault (Option Descriptor) := do
  if receiver = .string then
    if let some result ← textMethod? method then return some result
  if receiver.isCollection then
    if let .text s := method then return collectionMethod? receiver s
  return none

/-- What a rule can ask about the parts of its node. -/
structure Parts where
  types : Slot → Content (InferM Descriptor)
  receiver : InferM Descriptor
  /-- How to derive the types of what the return statements of a scope return. -/
  returned : ScopeId → List (Content (InferM Descriptor))

namespace Parts

def type (parts : Parts) (slot : Slot) : InferM Descriptor := do
  let type ← InferM.sole (parts.types slot)
  type

/-- Nothing is returned by a bare return statement. -/
def returnedType : Content (InferM Descriptor) → InferM Descriptor
  | .empty => pure .void
  | argument => do
    let type ← InferM.sole argument
    type

def functionType (parts : Parts) (scope : ScopeId) : InferM Descriptor := do
  let returned ← InferM.inTurn ((parts.returned scope).map returnedType)
  return .function (if returned.isEmpty then .void else .unify returned)

def lastType (parts : Parts) (slot : Slot) : InferM Descriptor :=
  match parts.types slot with
  | .many types =>
    match types.getLast? with
    | some type => type
    | none => .fault .emptySequence
  | _ => .fault .notList

def elementsType (parts : Parts) (slot : Slot) : InferM Descriptor :=
  match parts.types slot with
  | .empty => pure .array
  | .one _ => .fault .notList
  | .many types => do
    match (← InferM.inTurn types).eraseDups with
    | [element] => return .arrayOf element
    | _ => return .array

end Parts

namespace Environment

def sizeType (env : Environment) (computed : Bool) (property : Content Node) :
    InferM Descriptor := do
  let name ← InferM.ofFault (memberName computed property)
  let sized ← InferM.ofFault (isAmong env.settings.sizeProperties name)
  return if sized then .int else .object

def memberType (env : Environment) (computed : Bool) (property : Content Node) (parts : Parts) :
    InferM Descriptor := do
  if computed then
    let object ← parts.type .object
    match object with
    | .collection _ _ | .anyCollection _ => return object.element
    | _ =>
      if object = .string then
        if (← parts.type .property) = .int then return .string
      env.sizeType computed property
  else env.sizeType computed property

end Environment

def callType (callee : Content Node) (parts : Parts) : InferM Descriptor := do
  let known ← match ← InferM.ofFault (methodCall callee) with
    | none => pure none
    | some (.empty, _) => pure none
    | some (_, method) => do
      let receiver ← parts.receiver
      InferM.ofFault (methodResult receiver method)
  match known with
  | some result => return result
  | none => return (← parts.type .callee).result

def newType : Content Node → InferM Descriptor
  | .one node =>
    match node.form with
    | .identifier none _ => .fault .nameMissing
    | .identifier (some (.text "Array")) _ => return .array
    | _ => return .object
  | _ => return .object

def rule (env : Environment) (node : Node) (parts : Parts) : InferM Descriptor :=
  let head := node.head
  match head.form with
  | .statement _ => return .void
  | .function _ _ _ => parts.functionType head.inner
  | .identifier name role => env.nameType head.scope name role
  | .literal regex value => head.literalType regex value
  | .thisExpression => return .object
  | .assignment operator => do
    match (← head.operation operator Assignment.ofSymbol?).operation? with
    | none => parts.type .right
    | some operation =>
      let left ← parts.type .left
      let right ← parts.type .right
      return operation.result left right
  | .unary operator => do
    match ← head.operation operator UnaryOperation.ofSymbol? with
    | .typeName => return .string
    | .truth => return .bool
    | .sign => return numericLike (← parts.type .argument)
    | .complement => return .int
    | .discard => return .object
  | .binary operator => do
    let operation ← head.operation operator Operation.ofSymbol?
    let left ← parts.type .left
    let right ← parts.type .right
    return operation.result left right
  | .logical operator => do
    head.requireOperator operator isLogicalSymbol
    let left ← parts.type .left
    let right ← parts.type .right
    return .unify [left, right]
  | .conditional => do
    let consequent ← parts.type .consequent
    let alternate ← parts.type .alternate
    return .unify [consequent, alternate]
  | .update operator => do
    head.requireOperator operator isUpdateSymbol
    return numericLike (← parts.type .argument)
  | .member computed => env.memberType computed (node.content .property) parts
  | .call => callType (node.content .callee) parts
  | .new => newType (node.content .callee)
  | .sequence => parts.lastType .expressions
  | .array => parts.elementsType .elements
  | .object => return .object

namespace Node

mutual
def typeOf (env : Environment) : Node → InferM Descriptor
  | mk head children =>
    let derived := rule env (mk head children)
      ⟨fun slot => Content.ofParts head.lists slot (typesOf env children),
        receiverType env children, fun scope => returnTypes env scope children⟩
    match head.form with
    | .identifier _ _ => derived
    | _ => InferM.remembering head.id derived
/-- How to derive the type of each of these nodes, with the slot it stands in. -/
def typesOf (env : Environment) : List Node → List (Option Slot × InferM Descriptor)
  | [] => []
  | mk head children :: nodes => (head.slot, typeOf env (mk head children)) :: typesOf env nodes
/-- The type of the object of the member that stands in the callee's slot. -/
def receiverType (env : Environment) : List Node → InferM Descriptor
  | [] => .fault .notOneNode
  | mk head children :: nodes =>
    if head.slot = some .callee then do
      let type ← InferM.sole (Content.ofParts head.lists .object (typesOf env children))
      type
    else receiverType env nodes
def returnTypes (env : Environment) (scope : ScopeId) :
    List Node → List (Content (InferM Descriptor))
  | [] => []
  | mk head children :: nodes =>
    if head.scope = scope then
      let argument := match head.form with
        | .statement .returnStatement =>
          [Content.ofParts head.lists .argument (typesOf env children)]
        | _ => []
      let inside := if head.inner = scope then returnTypes env scope children else []
      argument ++ inside ++ returnTypes env scope nodes
    else returnTypes env scope nodes
end

end Node

end ScriptTypes
