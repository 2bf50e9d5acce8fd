import ScriptTypes.Kind
import ScriptTypes.Location
import ScriptTypes.Scope

/-! A node is its head and its children. The head holds what the rules read of the node, its place
in the tree and the raw fields it came from; the children of all slots stand in one list, and a slot
holds nothing, one node or a list of nodes. -/

namespace ScriptTypes

inductive LiteralValue where
  | null
  | bool
  | text (value : String)
  | integral
  | fractional
  | list
  | object
  deriving DecidableEq, Repr

namespace LiteralValue

def ofJson : Json → LiteralValue
  | .null => null
  | .bool _ => bool
  | .int _ => integral
  | .double x => if x.isIntegral then integral else fractional
  | .text s => text s
  | .list _ => list
  | .object _ => object

end LiteralValue

structure Binding where
  name : Name
  scope : ScopeId
  deriving DecidableEq, Repr

/-- What a node is, with the data that its rules read. -/
inductive Form where
  | statement (kind : StatementKind)
  /-- A function with its own name and that of the declarator it initialises. -/
  | function (expression : Bool) (own declarator : Option Binding)
  | identifier (name : Option Json) (role : Role)
  | literal (regex : Bool) (value : LiteralValue)
  | thisExpression
  | assignment (operator : Json)
  | unary (operator : Json)
  | binary (operator : Json)
  | logical (operator : Json)
  | conditional
  | update (operator : Json)
  | member (computed : Bool)
  | call
  | new
  | sequence
  | array
  | object

namespace Form

def kind : Form → Kind
  | statement kind => .statement kind
  | function false _ _ => .functionDeclaration
  | function true _ _ => .functionExpression
  | identifier _ _ => .identifier
  | literal _ _ => .literal
  | thisExpression => .thisExpression
  | assignment _ => .assignmentExpression
  | unary _ => .unaryExpression
  | binary _ => .binaryExpression
  | logical _ => .logicalExpression
  | conditional => .conditionalExpression
  | update _ => .updateExpression
  | member _ => .memberExpression
  | call => .callExpression
  | new => .newExpression
  | sequence => .sequenceExpression
  | array => .arrayExpression
  | object => .objectExpression

/-- The name that a function is listed under: the declarator's before its own. -/
def binding? : Form → Option Binding
  | function _ own declarator => declarator <|> own
  | _ => none

def displayName (form : Form) : Name :=
  match form.binding? with
  | some binding => binding.name
  | none => .text "(anonymous)"

/-- How a node of this form shows itself. -/
def text : Form → Except Fault String
  | identifier none _ => .error .nameMissing
  | identifier (some name) _ => .ok ("Identifier \"" ++ name.plain ++ "\"")
  | form@(function _ _ _) => .ok (form.kind.text ++ " " ++ form.displayName.plain)
  | form => .ok form.kind.text

end Form

structure Head where
  id : NodeId
  form : Form
  parent : Option NodeId
  slot : Option Slot
  scope : ScopeId
  /-- The scope that the children belong to. -/
  inner : ScopeId
  /-- The slots that hold a list. -/
  lists : List Slot
  fields : List (String × Json)
  location : Option Location

namespace Head

def kind (h : Head) : Kind := h.form.kind

def raw (h : Head) : Json := .object h.fields

def dataKeys (h : Head) : List String :=
  (h.fields.map Prod.fst).filter fun key => key ≠ "type" ∧ key ∉ h.kind.slots.map Slot.text

def isComputed (h : Head) : Bool := ((h.fields.lookup "computed").getD .null).isSet

def declarationWord (h : Head) : Json := (h.fields.lookup "kind").getD (.text "var")

end Head

inductive Node where
  | mk (head : Head) (children : List Node)

inductive Content (α : Type) where
  | empty
  | one (a : α)
  | many (as : List α)

namespace Content

variable {α : Type}

def toList : Content α → List α
  | empty => []
  | one a => [a]
  | many as => as

/-- The content of a slot, from what all slots hold. -/
def ofParts (lists : List Slot) (slot : Slot) (parts : List (Option Slot × α)) : Content α :=
  if slot ∈ lists then
    many (parts.filterMap fun part => if part.1 = some slot then some part.2 else none)
  else
    match parts.lookup (some slot) with
    | some a => one a
    | none => empty

end Content

namespace Node

def head : Node → Head
  | mk head _ => head

def children : Node → List Node
  | mk _ children => children

def id (n : Node) : NodeId := n.head.id

def form (n : Node) : Form := n.head.form

def kind (n : Node) : Kind := n.head.kind

def content (n : Node) (slot : Slot) : Content Node :=
  Content.ofParts n.head.lists slot (n.children.map fun child => (child.head.slot, child))

mutual
/-- The node and all below it, parents first. -/
def preorder : Node → List Node
  | mk head children => mk head children :: preorderAll children
def preorderAll : List Node → List Node
  | [] => []
  | node :: nodes => preorder node ++ preorderAll nodes
end

mutual
/-- The node and all below it, children first. -/
def postorder : Node → List Node
  | mk head children => postorderAll children ++ [mk head children]
def postorderAll : List Node → List Node
  | [] => []
  | node :: nodes => postorder node ++ postorderAll nodes
end

/-- Everything below a node, parents first. -/
def descendants (n : Node) : List Node := preorderAll n.children

def descendantsUp (n : Node) : List Node := postorderAll n.children

mutual
/-- The node and those below it that belong to a scope, found without entering another. -/
def inScope (scope : ScopeId) : Node → List Node
  | mk head children =>
    if head.scope = scope then
      mk head children :: if head.inner = scope then inScopeAll scope children else []
    else []
def inScopeAll (scope : ScopeId) : List Node → List Node
  | [] => []
  | node :: nodes => inScope scope node ++ inScopeAll scope nodes
end

/-- What belongs to the scope of the node's children. -/
def members (n : Node) : List Node := inScopeAll n.head.inner n.children

end Node

end ScriptTypes
