/-! The plain form of a path: no empty or `.` parts, and the root kept. Exactly two leading slashes
stay two. -/

namespace ScriptTypes.CommandLine

def root (path : String) : String :=
  match (path.toList.takeWhile (· = '/')).length with
  | 0 => ""
  | 2 => "//"
  | _ => "/"

def parts (path : String) : List String :=
  ((path.toList.splitOn '/').map String.ofList).filter fun part => part ≠ "" ∧ part ≠ "."

def plainPath (path : String) : String :=
  let plain := root path ++ "/".intercalate (parts path)
  if plain = "" then "." else plain

end ScriptTypes.CommandLine
