import ScriptTypes.Settings
import ScriptTypes.Tree.Reader

/-! A program is a tree with its scopes. All declarations are entered before anything is inferred,
so a name can be used ahead of its declaration. -/

namespace ScriptTypes

/-- What the typing rules consult: it does not change while types are inferred. -/
structure Environment where
  settings : Settings
  scopes : Scopes

structure Program extends Environment where
  root : Node
  nodeCount : Nat

namespace Program

def openScope (bound : Int) (scopes : Scopes) (n : Node) : Scopes :=
  match n.form with
  | .function _ _ _ =>
    scopes.push ⟨n.kind.text ++ " " ++ n.form.displayName.plain, scopes.chain n.head.scope, bound,
      [], []⟩
  | _ => scopes

def enterName (scopes : Scopes) (n : Node) : Scopes :=
  match n.form with
  | .identifier name .definition =>
    match Name.ofField name with
    | .ok name => scopes.modify n.head.scope (Scope.declare name n.id)
    | .error _ => scopes
  | _ => scopes

def enterFunction (scopes : Scopes) (n : Node) : Scopes :=
  match n.form with
  | .function _ own declarator =>
    (own.toList ++ declarator.toList).foldl
      (fun scopes b => scopes.modify b.scope (Scope.bind b.name n.id)) scopes
  | _ => scopes

/-- The scopes of a tree: definitions enter parents first, functions children first. -/
def scopesOf (bound : Int) (root : Node) : Scopes :=
  let opened := root.preorder.foldl (openScope bound) #[⟨"Program", [], bound, [], []⟩]
  let named := root.preorder.foldl enterName opened
  root.postorder.foldl enterFunction named

def ofTree (settings : Settings) (root : Node) : Program where
  settings := settings
  scopes := scopesOf settings.maxDepth root
  root := root
  nodeCount := root.preorder.length

def ofJson (settings : Settings) (tree : Json) : Except Failure Program :=
  (Node.ofJson tree).map (ofTree settings)

end Program

end ScriptTypes
