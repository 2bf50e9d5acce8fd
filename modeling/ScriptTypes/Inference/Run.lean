import ScriptTypes.Inference.Hints

/-! One round from the leaves up seeds the tables. Then whole passes follow, each on freshly derived
types, until one changes nothing or the pass limit is reached. -/

namespace ScriptTypes

namespace Program

def start (p : Program) : State := State.start p.scopes.size p.nodeCount

def settleAll (p : Program) : List Node → InferM Nat
  | [] => return 0
  | node :: nodes => do
    let changed ← p.settle node
    let rest ← p.settleAll nodes
    return if changed then rest + 1 else rest

def forgetAll (nodes : List Node) (st : State) : State :=
  nodes.foldl (fun st node => st.forget node.id) st

def pass (p : Program) : InferM Nat := do
  modify (forgetAll p.root.descendants)
  p.settleAll p.root.descendants

def passLimit (p : Program) : Nat := p.settings.passLimit p.nodeCount

/-- At most `left` passes after `done` of them; gives the number of all passes. -/
def passes (p : Program) : Nat → Nat → InferM Nat
  | 0, done => throw (.about (.notConverged done p.passLimit) .null)
  | left + 1, done => do
    let changes ← p.pass
    modify (State.record (.passed (done + 1) changes))
    if changes = 0 then return done + 1
    else p.passes left (done + 1)

/-- Infers all types; gives the number of passes, the last unchanged one included. -/
def infer (p : Program) : InferM Nat := do
  discard <| p.settleAll p.root.descendantsUp
  let passes ← p.passes p.passLimit 0
  modify (State.record (.converged passes p.nodeCount))
  return passes

end Program

end ScriptTypes
