import ScriptTypes.Tree.Basic

/-! The kinds of a tree: as nested entries, or one line a node, indented by two blanks a level. -/

namespace ScriptTypes

/-- An entry for a node without children or for one with the entries of its children. -/
inductive Outline where
  | leaf (kind : Kind)
  | branch (kind : Kind) (inner : List Outline)

namespace Outline

mutual
def toJson : Outline → Json
  | leaf kind => .list [.text kind.text]
  | branch kind inner => .list [.text kind.text, .list (toJsonAll inner)]
def toJsonAll : List Outline → List Json
  | [] => []
  | entry :: entries => toJson entry :: toJsonAll entries
end

def line (depth : Nat) (kind : Kind) : String :=
  String.ofList (List.replicate (2 * depth) ' ') ++ kind.text

mutual
def lines (depth : Nat) : Outline → List String
  | leaf kind => [line depth kind]
  | branch kind inner => line depth kind :: linesAll (depth + 1) inner
def linesAll (depth : Nat) : List Outline → List String
  | [] => []
  | entry :: entries => lines depth entry ++ linesAll depth entries
end

end Outline

namespace Node

mutual
def entry : Node → Outline
  | mk head children =>
    match entries children with
    | [] => .leaf head.kind
    | inner => .branch head.kind inner
def entries : List Node → List Outline
  | [] => []
  | node :: nodes => entry node :: entries nodes
end

def outline (n : Node) : Json := .list (Outline.toJsonAll (entries n.children))

/-- The node itself, and what its outline shows one level further in. -/
def outlineLines (n : Node) : List String := n.kind.text :: Outline.linesAll 1 (entries n.children)

end Node

end ScriptTypes
