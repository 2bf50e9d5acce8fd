/-! What a rule can find wrong with the shape of its node. The schema does not exclude these: a slot
may hold nothing, one node or a list, and any value may stand where a name or operator is read. Nor
does the grammar of arguments exclude a switch without its value or a path that is none. -/

namespace ScriptTypes

inductive Fault where
  | notOneNode
  | notList
  | notExpression
  | notIdentifier
  | noSuchSlot
  | nestedProgram
  /-- A column is neither a number nor a boolean. -/
  | columnNotNumber
  /-- A list or an object stands where a name or an operator is looked up. -/
  | compositeKey
  /-- A name that is not a text is measured against others. -/
  | nameNotText
  | nameMissing
  | emptySequence
  | blankSwitch
  /-- A path holds the character that ends texts for the file system. -/
  | nullInPath
  deriving DecidableEq, Repr

/-- Most faults are named by their kind alone. -/
def Fault.message? : Fault → Option String
  | nullInPath => some "embedded null byte"
  | _ => none

end ScriptTypes
