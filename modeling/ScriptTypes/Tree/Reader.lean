import ScriptTypes.Tree.Basic

/-! A JSON value is read into a tree top down and from left to right; nodes and scopes are numbered
as they are met. The first fault ends the reading: a node's kind is settled before its location, its
own declaration before its children, and the names that a function is bound to after them. -/

namespace ScriptTypes

structure Counter where
  node : NodeId
  scope : ScopeId

abbrev ReadM := StateT Counter (Except Failure)

namespace ReadM

def ofFault {α : Type} : Except Fault α → ReadM α
  | .ok a => pure a
  | .error fault => throw (.fault fault)

def newNode : ReadM NodeId := do
  let counter ← get
  set { counter with node := counter.node + 1 }
  return counter.node

def newScope : ReadM ScopeId := do
  let counter ← get
  set { counter with scope := counter.scope + 1 }
  return counter.scope

end ReadM

/-- What a node takes over from where it stands. -/
structure Place where
  parent : Option NodeId
  slot : Option Slot
  scope : ScopeId
  role : Role
  /-- How the parent shows itself while its children are read. -/
  holder : Except Fault String
  /-- The declarator's name, for the value it is initialised with. -/
  declarator : Content Node

namespace Place

def root : Place := ⟨none, none, 0, .reference, .ok "expected Program", .empty⟩

end Place

/-- The identifier that a function is bound to through a slot. -/
def Binding.ofContent : Content Node → Except Fault (Option Binding)
  | .empty => .ok none
  | .one node =>
    match node.form with
    | .identifier name _ => (Name.ofField name).map fun name => some ⟨name, node.head.scope⟩
    | _ => .error .notIdentifier
  | .many _ => .error .notIdentifier

/-- What has been read of a node's children. -/
structure Reading where
  children : List Node := []
  lists : List Slot := []

namespace Reading

def content (r : Reading) (slot : Slot) : Content Node :=
  Content.ofParts r.lists slot (r.children.map fun child => (child.head.slot, child))

def add (r : Reading) (slot : Slot) (content : Content Node) : Reading :=
  { children := r.children ++ content.toList
    lists := match content with
      | .many _ => r.lists ++ [slot]
      | _ => r.lists }

end Reading

/-- What is known of a node before its children are read. -/
structure Opening where
  id : NodeId
  kind : Kind
  place : Place
  inner : ScopeId
  fields : List (String × Json)
  location : Option Location

namespace Opening

def isComputed (o : Opening) : Bool := ((o.fields.lookup "computed").getD .null).isSet

def text (o : Opening) (r : Reading) : Except Fault String :=
  if o.kind.isFunction then do
    let declarator ← Binding.ofContent o.place.declarator
    let own ← if declarator.isSome then pure none else Binding.ofContent (r.content .id)
    (Form.function (o.kind = .functionExpression) own declarator).text
  else .ok o.kind.text

/-- A declared function's name belongs to the scope around the function. -/
def childScope (o : Opening) (slot : Slot) : ScopeId :=
  if o.kind = .functionDeclaration ∧ slot = .id then o.place.scope else o.inner

def childPlace (o : Opening) (r : Reading) (slot : Slot) : Place where
  parent := some o.id
  slot := some slot
  scope := o.childScope slot
  role := o.kind.role o.isComputed slot
  holder := o.text r
  declarator :=
    if o.kind = .statement .variableDeclarator ∧ slot = .init then r.content .id else .empty

def form (o : Opening) (r : Reading) : Except Fault Form :=
  let operator := (o.fields.lookup "operator").getD (.text "")
  let bound (expression : Bool) : Except Fault Form := do
    let own ← Binding.ofContent (r.content .id)
    let declarator ← Binding.ofContent o.place.declarator
    return .function expression own declarator
  match o.kind with
  | .statement kind => .ok (.statement kind)
  | .functionDeclaration => bound false
  | .functionExpression => bound true
  | .identifier => .ok (.identifier (o.fields.lookup "name") o.place.role)
  | .literal =>
    .ok (.literal (o.fields.lookup "regex").isSome
      (.ofJson ((o.fields.lookup "value").getD .null)))
  | .thisExpression => .ok .thisExpression
  | .assignmentExpression => .ok (.assignment operator)
  | .unaryExpression => .ok (.unary operator)
  | .binaryExpression => .ok (.binary operator)
  | .logicalExpression => .ok (.logical operator)
  | .conditionalExpression => .ok .conditional
  | .updateExpression => .ok (.update operator)
  | .memberExpression => .ok (.member o.isComputed)
  | .callExpression => .ok .call
  | .newExpression => .ok .new
  | .sequenceExpression => .ok .sequence
  | .arrayExpression => .ok .array
  | .objectExpression => .ok .object

def close (o : Opening) (r : Reading) : Except Fault Node :=
  (o.form r).map fun form =>
    .mk ⟨o.id, form, o.place.parent, o.place.slot, o.place.scope, o.inner, r.lists, o.fields,
      o.location⟩ r.children

end Opening

/-- Numbers a node and checks what it declares. -/
def openNode (place : Place) (kind : Kind) (fields : List (String × Json)) : ReadM Opening := do
  let location ← ReadM.ofFault (Location.ofJson (.object fields))
  let id ← ReadM.newNode
  if kind = .identifier ∧ place.role = .definition then
    discard <| ReadM.ofFault (Name.ofField (fields.lookup "name"))
  let inner ← if kind.isFunction then ReadM.newScope else pure place.scope
  return ⟨id, kind, place, inner, fields, location⟩

/-- Reads a node of a known kind, given how the content of each slot is read. -/
def readNode (place : Place) (kind : Kind) (fields : List (String × Json))
    (child : Slot → Place → ReadM (Content Node)) : ReadM Node := do
  let opening ← openNode place kind fields
  let reading ← kind.slots.foldlM (fun (reading : Reading) slot => do
    return reading.add slot (← child slot (opening.childPlace reading slot))) {}
  ReadM.ofFault (opening.close reading)

def unknownKind (place : Place) (kind raw : Json) : Failure :=
  match place.holder with
  | .ok context => .about (.unknownKind kind context) raw
  | .error fault => .fault fault

def readObject (place : Place) (fields : List (String × Json))
    (child : Slot → Place → ReadM (Content Node)) : ReadM Node :=
  let type := (fields.lookup "type").getD .null
  let kind := match type with
    | .text s => Kind.ofText? s
    | _ => none
  match kind with
  | none => throw (unknownKind place type (.object fields))
  | some (.statement .program) => throw (.fault .nestedProgram)
  | some kind => readNode place kind fields child

mutual
/-- Reads what a slot or a list holds. Nulls are nothing, and lists do not nest. -/
def readContent : Json → Bool → Place → ReadM (Content Node)
  | .null, _, _ => return .empty
  | .list items, false, place => return .many (← readItems items place)
  | .object fields, _, place =>
    return .one (← readObject place fields fun slot inner => readField slot.text fields inner)
  | raw, _, place => throw (unknownKind place .null raw)
termination_by structural raw => raw
def readField (key : String) : List (String × Json) → Place → ReadM (Content Node)
  | [], _ => return .empty
  | (other, value) :: fields, place =>
    if other = key then readContent value false place else readField key fields place
termination_by structural fields => fields
def readItems : List Json → Place → ReadM (List Node)
  | [], _ => return []
  | item :: items, place => do
    let content ← readContent item true place
    return content.toList ++ (← readItems items place)
termination_by structural items => items
end

def readProgram (tree : Json) : ReadM Node :=
  let type := (tree.get? "type").getD .null
  match tree, type with
  | .object fields, .text "Program" =>
    readNode .root (.statement .program) fields fun slot inner => readField slot.text fields inner
  | _, _ => throw (unknownKind .root type tree)

/-- The tree that a JSON value describes, its nodes and scopes numbered from zero. -/
def Node.ofJson (tree : Json) : Except Failure Node := (readProgram tree).run' ⟨0, 1⟩

end ScriptTypes
