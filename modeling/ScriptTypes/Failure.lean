import ScriptTypes.Location
import ScriptTypes.Name
import ScriptTypes.Text.Suggestion

/-! A failure is a report with a code, for what the rules do not cover and for names that are not
found, or a fault of a malformed tree. A report on a node shows where the node stands, its keys and
the node itself, cut at a thousand characters. -/

namespace ScriptTypes

inductive Problem where
  | unknownKind (kind : Json) (context : String)
  | unknownOperator (kind : String) (operator : Json)
  | missingRule (kind detail : String)
  | notConverged (passes limit : Int)
  | unknownName (name : Json) (suggestions : List String)
  /-- A remark outside the catalogue. -/
  | remark (text : String)

namespace Problem

def code : Problem → String
  | unknownName _ _ => "E0102"
  | unknownKind _ _ => "E0301"
  | unknownOperator _ _ => "E0302"
  | missingRule _ _ => "E0303"
  | notConverged _ _ => "E0304"
  | remark _ => ""

def description : Problem → String
  | unknownName _ _ => "unknown identifier"
  | unknownKind _ _ => "unknown node kind"
  | unknownOperator _ _ => "unimplemented operator"
  | missingRule _ _ => "unimplemented inference rule"
  | notConverged _ _ => "type inference did not converge"
  | remark _ => ""

def isFatal : Problem → Bool
  | unknownName _ _ | remark _ => false
  | _ => true

def isQuery : Problem → Bool
  | unknownName _ _ => true
  | _ => false

def message : Problem → String
  | unknownKind kind context =>
    (if context = "" then "" else context ++ ": ") ++ "Unknown node kind: " ++ kind.plain
  | unknownOperator kind operator =>
    kind ++ ": type inference not implemented for operator " ++ operator.literal
  | missingRule kind detail =>
    kind ++ ": infer_type not implemented" ++ if detail = "" then "" else " (" ++ detail ++ ")"
  | notConverged passes limit =>
    "type inference still changing after " ++ toString passes ++ " passes (limit " ++
      toString limit ++ ")"
  | unknownName name suggestions =>
    let quoted := suggestions.map fun s => "'" ++ s ++ "'"
    "unknown identifier '" ++ name.plain ++ "'" ++
      if suggestions = [] then "" else "; did you mean " ++ ", ".intercalate quoted ++ "?"
  | remark text => text

end Problem

/-- The indented text of a value, cut after `limit` characters. -/
def dump (raw : Json) (limit : Int := 1000) : String :=
  let text := raw.indented
  if limit < text.length then String.ofList (Text.keepUntil limit text.toList) ++ "\n..." else text

def describe (raw : Json) : String :=
  match raw with
  | .null => ""
  | _ =>
    let keys := Json.list (raw.fields.map fun field => .text field.1)
    "\n\nKeys:\n" ++ keys.indented ++ "\n\nNode:\n" ++ dump raw

structure Report where
  problem : Problem
  raw : Json
  location : Option Location

namespace Report

def about (problem : Problem) (raw : Json) : Except Fault Report :=
  (Location.ofJson raw).map fun location => ⟨problem, raw, location⟩

def text (r : Report) : String :=
  let code := if r.problem.code = "" then [] else ["error[" ++ r.problem.code ++ "]:"]
  let place := r.location.toList.map fun l => "[" ++ l.text ++ "]"
  let detail := if r.problem.isFatal then describe r.raw else ""
  " ".intercalate (code ++ place ++ [r.problem.message ++ detail])

end Report

inductive Failure where
  | report (report : Report)
  | fault (fault : Fault)

namespace Failure

def about (problem : Problem) (raw : Json) : Failure :=
  match Report.about problem raw with
  | .ok r => .report r
  | .error f => .fault f

end Failure

end ScriptTypes
