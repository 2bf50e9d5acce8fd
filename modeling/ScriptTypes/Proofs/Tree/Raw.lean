import ScriptTypes.Json.Basic

/-! Raw trees, statement by statement, of programs that show what inference can do. -/

namespace ScriptTypes

namespace Raw

def node (kind : String) (fields : List (String × Json)) : Json :=
  .object (("type", .text kind) :: fields)

def identifier (name : String) : Json := node "Identifier" [("name", .text name)]

def literal (value : Json) : Json := node "Literal" [("value", value)]

def array (elements : List Json) : Json := node "ArrayExpression" [("elements", .list elements)]

def call (callee : Json) : Json :=
  node "CallExpression" [("callee", callee), ("arguments", .list [])]

/-- The tree of `object.name`. -/
def property (object : Json) (name : String) : Json :=
  node "MemberExpression" [("object", object), ("property", identifier name)]

/-- The tree of `object[index]`. -/
def element (object index : Json) : Json :=
  node "MemberExpression" [("computed", .bool true), ("object", object), ("property", index)]

def expression (value : Json) : Json := node "ExpressionStatement" [("expression", value)]

/-- The tree of `name = value;`. -/
def assignment (name : String) (value : Json) : Json :=
  expression (node "AssignmentExpression"
    [("operator", .text "="), ("left", identifier name), ("right", value)])

/-- The tree of `var name = value;`. -/
def declaration (name : String) (value : Json) : Json :=
  node "VariableDeclaration" [("declarations", .list [node "VariableDeclarator"
    [("id", identifier name), ("init", value)]])]

/-- The parts of a function without parameters that returns one of these values. -/
def returning (values : List Json) : List (String × Json) :=
  [("params", .list []), ("body", node "BlockStatement"
    [("body", .list (values.map fun value => node "ReturnStatement" [("argument", value)]))])]

def function (name : String) (values : List Json) : Json :=
  node "FunctionDeclaration" (("id", identifier name) :: returning values)

def closure (values : List Json) : Json := node "FunctionExpression" (returning values)

def program (statements : List Json) : Json := node "Program" [("body", .list statements)]

end Raw

end ScriptTypes
