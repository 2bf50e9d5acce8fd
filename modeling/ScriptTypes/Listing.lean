import ScriptTypes.Inference.Typing

/-! The names defined in a scope with their types. A function is listed under the name it is bound
to, and may list the names of its own scope in turn. -/

namespace ScriptTypes

inductive Entry where
  | mk (type : Descriptor) (inner : Option (List (Name × Entry)))

namespace Entry

def type : Entry → Descriptor
  | mk type _ => type

mutual
def toJson : Entry → Json
  | mk type none => .object [("dataType", .text type.text)]
  | mk type (some inner) =>
    .object [("dataType", .text type.text), ("identifiers", .object (fieldsOf inner))]
def fieldsOf : List (Name × Entry) → List (String × Json)
  | [] => []
  | (name, entry) :: entries => (name.fieldName, entry.toJson) :: fieldsOf entries
end

mutual
/-- One line a name, the names inside a function two blanks further in. -/
def lines (depth : Nat) (name : Name) : Entry → List String
  | mk type inner =>
    (String.ofList (List.replicate (2 * depth) ' ') ++ name.plain ++ ": " ++ type.text) ::
      match inner with
      | none => []
      | some inner => linesOf (depth + 1) inner
def linesOf (depth : Nat) : List (Name × Entry) → List String
  | [] => []
  | (name, entry) :: entries => entry.lines depth name ++ linesOf depth entries
end

end Entry

abbrev Listing := Table Entry

namespace Environment

def bindingType (env : Environment) (binding : Binding) : InferM Descriptor :=
  env.nameType binding.scope (some binding.name.toJson) .definition

/-- The type that a function is listed with. -/
def listedType (env : Environment) (node : Node) : InferM Descriptor :=
  match node.form.binding? with
  | some binding => env.bindingType binding
  | none => node.typeOf env

mutual
/-- Enters the names of one scope that a node and those below it define, given the listing so far.
A function's entry overwrites, any other keeps what is there; the own name of the listed function
is skipped. -/
def enter (env : Environment) (recursive : Bool) (owner : NodeId) (scope : ScopeId) :
    Node → Listing → InferM Listing
  | .mk head children, listing => do
    if head.scope ≠ scope then return listing
    let listing ← match head.form with
      | .function _ _ _ => do
        let type ← env.listedType (.mk head children)
        let inner ← if recursive then
            some <$> enterAll env recursive head.id head.inner children []
          else pure none
        pure (Table.put head.form.displayName (.mk type inner) listing)
      | .identifier name .definition =>
        if head.parent = some owner ∧ head.slot = some .id then pure listing
        else do
          let name ← InferM.ofFault (Name.ofField name)
          let type ← env.nameType head.scope (some name.toJson) .definition
          pure (Table.putNew name (.mk type none) listing)
      | _ => pure listing
    if head.inner = scope then enterAll env recursive owner scope children listing
    else return listing
def enterAll (env : Environment) (recursive : Bool) (owner : NodeId) (scope : ScopeId) :
    List Node → Listing → InferM Listing
  | [], listing => return listing
  | node :: nodes, listing => do
    let listing ← enter env recursive owner scope node listing
    enterAll env recursive owner scope nodes listing
end

/-- The names defined in the scope of a node's children. -/
def listing (env : Environment) (recursive : Bool) (node : Node) : InferM Listing :=
  enterAll env recursive node.id node.head.inner node.children []

end Environment

end ScriptTypes
