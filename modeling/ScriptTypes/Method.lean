import ScriptTypes.Descriptor.Specificity

/-! Results of method calls on texts and on collections. -/

namespace ScriptTypes

def stringMethod? : String → Option Descriptor
  | "charAt" | "substring" | "substr" | "slice" | "concat" | "toLowerCase" | "toUpperCase"
  | "trim" | "replace" => some .string
  | "charCodeAt" | "indexOf" | "lastIndexOf" | "localeCompare" => some .int
  | "split" => some (.arrayOf .string)
  | _ => none

def collectionMethod? (receiver : Descriptor) : String → Option Descriptor
  | "push" | "unshift" | "indexOf" | "lastIndexOf" => some .int
  | "pop" | "shift" => some receiver.element
  | "join" => some .string
  | "slice" | "concat" | "reverse" | "sort" => some receiver
  | _ => none

end ScriptTypes
