import ScriptTypes.Descriptor.Specificity

/-! Which symbols each operator expression accepts, and what they say about their result. -/

namespace ScriptTypes

/-- What a binary operator does with its operands. -/
inductive Operation where
  /-- Adds numbers or joins texts. -/
  | plus
  | arithmetic
  | bitwise
  | relational
  | equality
  deriving DecidableEq, Repr

namespace Operation

def ofSymbol? : String → Option Operation
  | "+" => some plus
  | "-" | "*" | "/" | "%" => some arithmetic
  | "|" | "&" | "^" | "<<" | ">>" | ">>>" => some bitwise
  | "<" | ">" | "<=" | ">=" => some relational
  | "==" | "!=" | "===" | "!==" | "instanceof" | "in" => some equality
  | _ => none

def isNumeric : Operation → Bool
  | arithmetic | bitwise => true
  | _ => false

def result : Operation → Descriptor → Descriptor → Descriptor
  | plus, left, right =>
    if .string ∈ [left, right] then .string
    else if .double ∈ [left, right] then .double
    else if .int ∈ [left, right] then .int
    else .intOrString
  | arithmetic, left, right => if .double ∈ [left, right] then .double else .int
  | bitwise, _, _ => .int
  | relational, _, _ => .bool
  | equality, _, _ => .bool

end Operation

/-- An assignment stores its right side, or applies an operation first. -/
inductive Assignment where
  | store
  | apply (symbol : String)
  deriving DecidableEq, Repr

namespace Assignment

def ofSymbol? : String → Option Assignment
  | "=" => some store
  | "+=" => some (apply "+")
  | "-=" => some (apply "-")
  | "*=" => some (apply "*")
  | "/=" => some (apply "/")
  | "%=" => some (apply "%")
  | "<<=" => some (apply "<<")
  | ">>=" => some (apply ">>")
  | ">>>=" => some (apply ">>>")
  | "|=" => some (apply "|")
  | "&=" => some (apply "&")
  | "^=" => some (apply "^")
  | _ => none

def symbol? : Assignment → Option String
  | store => none
  | apply symbol => some symbol

def operation? (a : Assignment) : Option Operation := a.symbol?.bind Operation.ofSymbol?

end Assignment

inductive UnaryOperation where
  | typeName
  | truth
  | sign
  | complement
  | discard
  deriving DecidableEq, Repr

namespace UnaryOperation

def ofSymbol? : String → Option UnaryOperation
  | "typeof" => some typeName
  | "!" | "delete" => some truth
  | "-" | "+" => some sign
  | "~" => some complement
  | "void" => some discard
  | _ => none

end UnaryOperation

def isUpdateSymbol (s : String) : Bool := s = "++" || s = "--"

def isLogicalSymbol (s : String) : Bool := s = "&&" || s = "||"

/-- The numeric type of an operand that is stepped or signed. -/
def numericLike (d : Descriptor) : Descriptor := if d = .double then .double else .int

end ScriptTypes
