import ScriptTypes.Json.Basic
import ScriptTypes.Number.Shortest
import ScriptTypes.Text.Quoted

/-! `indented` and `compact` are JSON in ASCII; `literal` writes nulls, booleans and quotes in words
of its own, and `plain` is `literal` with a top-level text left bare. -/

namespace ScriptTypes.Json

def unitEscape (unit : Nat) : List Char := '\\' :: 'u' :: Text.hexadecimal 4 unit

/-- A character beyond the ASCII range is written as one or two UTF-16 units. -/
def escapedChar (c : Char) : List Char :=
  if c = '\"' then ['\\', '\"']
  else if c = '\\' then ['\\', '\\']
  else if c = '\n' then ['\\', 'n']
  else if c = '\r' then ['\\', 'r']
  else if c = '\t' then ['\\', 't']
  else if c = '\x08' then ['\\', 'b']
  else if c = '\x0c' then ['\\', 'f']
  else if 0x20 ≤ c.toNat ∧ c.toNat < 0x7f then [c]
  else if c.toNat < 0x10000 then unitEscape c.toNat
  else
    let rest := c.toNat - 0x10000
    unitEscape (0xd800 + rest / 0x400) ++ unitEscape (0xdc00 + rest % 0x400)

def escaped (s : String) : String :=
  String.ofList ('\"' :: s.toList.flatMap escapedChar ++ ['\"'])

def scalar : Json → String
  | bool true => "true"
  | bool false => "false"
  | int n => toString n
  | double x => x.decimal "Infinity" "NaN"
  | text s => escaped s
  | _ => "null"

def newline (depth : Nat) : String := "\n" ++ String.ofList (List.replicate (2 * depth) ' ')

mutual
def indentedAt (depth : Nat) : Json → String
  | list [] => "[]"
  | list (item :: items) =>
    "[" ++ newline (depth + 1) ++ indentedAt (depth + 1) item ++ indentedItems (depth + 1) items ++
      newline depth ++ "]"
  | object [] => "\x7b\x7d"
  | object ((key, value) :: fields) =>
    "\x7b" ++ newline (depth + 1) ++ escaped key ++ ": " ++ indentedAt (depth + 1) value ++
      indentedFields (depth + 1) fields ++ newline depth ++ "\x7d"
  | j => scalar j
def indentedItems (depth : Nat) : List Json → String
  | [] => ""
  | item :: items => "," ++ newline depth ++ indentedAt depth item ++ indentedItems depth items
def indentedFields (depth : Nat) : List (String × Json) → String
  | [] => ""
  | (key, value) :: fields =>
    "," ++ newline depth ++ escaped key ++ ": " ++ indentedAt depth value ++
      indentedFields depth fields
end

/-- Two blanks a level; empty lists and objects stay on their line. -/
def indented (j : Json) : String := indentedAt 0 j

mutual
def compact : Json → String
  | list items => "[" ++ ",".intercalate (compactItems items) ++ "]"
  | object fields => "\x7b" ++ ",".intercalate (compactFields fields) ++ "\x7d"
  | j => scalar j
def compactItems : List Json → List String
  | [] => []
  | item :: items => compact item :: compactItems items
def compactFields : List (String × Json) → List String
  | [] => []
  | (key, value) :: fields => (escaped key ++ ":" ++ compact value) :: compactFields fields
end

mutual
def literal : Json → String
  | null => "None"
  | bool true => "True"
  | bool false => "False"
  | int n => toString n
  | double x => x.decimal "inf" "nan"
  | text s => Text.quoted s
  | list items => "[" ++ ", ".intercalate (literalItems items) ++ "]"
  | object fields => "\x7b" ++ ", ".intercalate (literalFields fields) ++ "\x7d"
def literalItems : List Json → List String
  | [] => []
  | item :: items => literal item :: literalItems items
def literalFields : List (String × Json) → List String
  | [] => []
  | (key, value) :: fields => (Text.quoted key ++ ": " ++ literal value) :: literalFields fields
end

def plain : Json → String
  | text s => s
  | j => j.literal

end ScriptTypes.Json
