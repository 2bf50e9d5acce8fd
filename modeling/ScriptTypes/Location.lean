import ScriptTypes.Fault
import ScriptTypes.Json.Printer

/-! Read from the `loc` block of a node. Columns are counted from zero there and from one here; line
and source are shown as they stand. -/

namespace ScriptTypes

structure Location where
  line : Json
  column : Json
  source : Json

namespace Location

def nextColumn : Json → Except Fault Json
  | .bool b => .ok (.int (b.toNat + 1))
  | .int n => .ok (.int (n + 1))
  | .double x => .ok (.double x.succ)
  | _ => .error .columnNotNumber

def ofBlocks (loc start : List (String × Json)) : Except Fault Location :=
  (nextColumn ((start.lookup "column").getD (.int 0))).map fun column =>
    ⟨(start.lookup "line").getD (.int 0), column, (loc.lookup "source").getD .null⟩

/-- The location of a node, if it has one. -/
def ofJson (raw : Json) : Except Fault (Option Location) :=
  match raw.get? "loc" with
  | some (.object loc) =>
    match loc.lookup "start" with
    | some (.object start) => (ofBlocks loc start).map some
    | _ => .ok none
  | _ => .ok none

def text (l : Location) : String :=
  let position := l.line.plain ++ ":" ++ l.column.plain
  if l.source.isSet then l.source.plain ++ ":" ++ position else position

end Location

end ScriptTypes
