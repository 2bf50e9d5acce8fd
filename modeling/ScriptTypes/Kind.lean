/-! Which kinds of ESTree node are known and which of their properties hold child nodes, in the
order in which they are read. Every other property is plain data. -/

namespace ScriptTypes

/-- A property that holds child nodes. -/
inductive Slot where
  | alternate
  | argument
  | arguments
  | block
  | body
  | callee
  | cases
  | consequent
  | declarations
  | discriminant
  | elements
  | expression
  | expressions
  | finalizer
  | handler
  | id
  | init
  | key
  | label
  | left
  | object
  | param
  | params
  | properties
  | property
  | right
  | test
  | update
  | value
  deriving DecidableEq, Repr

namespace Slot

def text : Slot → String
  | alternate => "alternate"
  | argument => "argument"
  | arguments => "arguments"
  | block => "block"
  | body => "body"
  | callee => "callee"
  | cases => "cases"
  | consequent => "consequent"
  | declarations => "declarations"
  | discriminant => "discriminant"
  | elements => "elements"
  | expression => "expression"
  | expressions => "expressions"
  | finalizer => "finalizer"
  | handler => "handler"
  | id => "id"
  | init => "init"
  | key => "key"
  | label => "label"
  | left => "left"
  | object => "object"
  | param => "param"
  | params => "params"
  | properties => "properties"
  | property => "property"
  | right => "right"
  | test => "test"
  | update => "update"
  | value => "value"

end Slot

/-- Kinds without a value, function declarations apart. -/
inductive StatementKind where
  | program
  | blockStatement
  | emptyStatement
  | debuggerStatement
  | variableDeclaration
  | variableDeclarator
  | expressionStatement
  | ifStatement
  | whileStatement
  | doWhileStatement
  | forStatement
  | forInStatement
  | switchStatement
  | switchCase
  | returnStatement
  | breakStatement
  | continueStatement
  | labeledStatement
  | throwStatement
  | tryStatement
  | catchClause
  | property
  deriving DecidableEq, Repr

namespace StatementKind

def all : List StatementKind :=
  [program, blockStatement, emptyStatement, debuggerStatement, variableDeclaration,
    variableDeclarator, expressionStatement, ifStatement, whileStatement, doWhileStatement,
    forStatement, forInStatement, switchStatement, switchCase, returnStatement, breakStatement,
    continueStatement, labeledStatement, throwStatement, tryStatement, catchClause, property]

def text : StatementKind → String
  | program => "Program"
  | blockStatement => "BlockStatement"
  | emptyStatement => "EmptyStatement"
  | debuggerStatement => "DebuggerStatement"
  | variableDeclaration => "VariableDeclaration"
  | variableDeclarator => "VariableDeclarator"
  | expressionStatement => "ExpressionStatement"
  | ifStatement => "IfStatement"
  | whileStatement => "WhileStatement"
  | doWhileStatement => "DoWhileStatement"
  | forStatement => "ForStatement"
  | forInStatement => "ForInStatement"
  | switchStatement => "SwitchStatement"
  | switchCase => "SwitchCase"
  | returnStatement => "ReturnStatement"
  | breakStatement => "BreakStatement"
  | continueStatement => "ContinueStatement"
  | labeledStatement => "LabeledStatement"
  | throwStatement => "ThrowStatement"
  | tryStatement => "TryStatement"
  | catchClause => "CatchClause"
  | property => "Property"

def slots : StatementKind → List Slot
  | program => [.body]
  | blockStatement => [.body]
  | emptyStatement => []
  | debuggerStatement => []
  | variableDeclaration => [.declarations]
  | variableDeclarator => [.id, .init]
  | expressionStatement => [.expression]
  | ifStatement => [.test, .consequent, .alternate]
  | whileStatement => [.test, .body]
  | doWhileStatement => [.body, .test]
  | forStatement => [.init, .test, .update, .body]
  | forInStatement => [.left, .right, .body]
  | switchStatement => [.discriminant, .cases]
  | switchCase => [.test, .consequent]
  | returnStatement => [.argument]
  | breakStatement => [.label]
  | continueStatement => [.label]
  | labeledStatement => [.label, .body]
  | throwStatement => [.argument]
  | tryStatement => [.block, .handler, .finalizer]
  | catchClause => [.param, .body]
  | property => [.key, .value]

end StatementKind

inductive Kind where
  | statement (kind : StatementKind)
  | functionDeclaration
  | functionExpression
  | identifier
  | literal
  | thisExpression
  | assignmentExpression
  | unaryExpression
  | binaryExpression
  | logicalExpression
  | conditionalExpression
  | updateExpression
  | memberExpression
  | callExpression
  | newExpression
  | sequenceExpression
  | arrayExpression
  | objectExpression
  deriving DecidableEq, Repr

/-- What a name does where it stands. -/
inductive Role where
  | definition
  | reference
  /-- Names no variable: a label, a member or a key. -/
  | label
  deriving DecidableEq, Repr

namespace Kind

def schemaVersion : Nat := 2

def all : List Kind :=
  StatementKind.all.map statement ++
    [functionDeclaration, functionExpression, identifier, literal, thisExpression,
      assignmentExpression, unaryExpression, binaryExpression, logicalExpression,
      conditionalExpression, updateExpression, memberExpression, callExpression, newExpression,
      sequenceExpression, arrayExpression, objectExpression]

def text : Kind → String
  | statement kind => kind.text
  | functionDeclaration => "FunctionDeclaration"
  | functionExpression => "FunctionExpression"
  | identifier => "Identifier"
  | literal => "Literal"
  | thisExpression => "ThisExpression"
  | assignmentExpression => "AssignmentExpression"
  | unaryExpression => "UnaryExpression"
  | binaryExpression => "BinaryExpression"
  | logicalExpression => "LogicalExpression"
  | conditionalExpression => "ConditionalExpression"
  | updateExpression => "UpdateExpression"
  | memberExpression => "MemberExpression"
  | callExpression => "CallExpression"
  | newExpression => "NewExpression"
  | sequenceExpression => "SequenceExpression"
  | arrayExpression => "ArrayExpression"
  | objectExpression => "ObjectExpression"

def ofText? (s : String) : Option Kind := all.find? fun kind => kind.text = s

def slots : Kind → List Slot
  | statement kind => kind.slots
  | functionDeclaration | functionExpression => [.id, .params, .body]
  | identifier | literal | thisExpression => []
  | assignmentExpression | binaryExpression | logicalExpression => [.left, .right]
  | unaryExpression | updateExpression => [.argument]
  | conditionalExpression => [.test, .consequent, .alternate]
  | memberExpression => [.object, .property]
  | callExpression | newExpression => [.callee, .arguments]
  | sequenceExpression => [.expressions]
  | arrayExpression => [.elements]
  | objectExpression => [.properties]

def isExpression : Kind → Bool
  | statement _ | functionDeclaration => false
  | _ => true

def isFunction : Kind → Bool
  | functionDeclaration | functionExpression => true
  | _ => false

/-- The role of an identifier in a slot of a node of this kind. -/
def role (computed : Bool) : Kind → Slot → Role
  | functionDeclaration, .id | functionExpression, .id => .definition
  | functionDeclaration, .params | functionExpression, .params => .definition
  | statement .variableDeclarator, .id => .definition
  | statement .catchClause, .param => .definition
  | statement .breakStatement, .label => .label
  | statement .continueStatement, .label => .label
  | statement .labeledStatement, .label => .label
  | statement .property, .key => if computed then .reference else .label
  | memberExpression, .property => if computed then .reference else .label
  | _, _ => .reference

end Kind

end ScriptTypes
