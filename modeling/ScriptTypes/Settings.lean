import ScriptTypes.Name

/-! Depth and pass limits are positive by type; `Settings.change` refuses anything else. -/

namespace ScriptTypes

structure Settings where
  /-- Members whose value is taken to be an `int`. -/
  sizeProperties : List Name
  /-- Methods that mark their receiver as a `string`. -/
  stringMethods : List Name
  maxDepth : Nat
  passFactor : Nat
  minPasses : Nat
  maxDepth_pos : 0 < maxDepth := by decide
  passFactor_pos : 0 < passFactor := by decide
  minPasses_pos : 0 < minPasses := by decide

namespace Settings

def standard : Settings where
  sizeProperties := [.text "count", .text "length", .text "size"]
  stringMethods := [.text "charAt", .text "charCodeAt", .text "substring", .text "substr",
    .text "toLowerCase", .text "toUpperCase", .text "trim", .text "split", .text "replace",
    .text "localeCompare"]
  maxDepth := 4
  passFactor := 4
  minPasses := 32

instance : Inhabited Settings := ⟨standard⟩

/-- How many passes a tree of `nodes` nodes may take. -/
def passLimit (s : Settings) (nodes : Nat) : Nat := max s.minPasses (s.passFactor * nodes)

/-- New values for some of the settings. -/
structure Overrides where
  sizeProperties : Option (List Name) := none
  stringMethods : Option (List Name) := none
  maxDepth : Option Int := none
  passFactor : Option Int := none
  minPasses : Option Int := none

inductive Refusal where
  | depthTooSmall
  | passLimitTooSmall
  deriving DecidableEq, Repr

def Refusal.message : Refusal → String
  | depthTooSmall => "max_type_depth must be at least 1"
  | passLimitTooSmall => "pass limits must be positive"

def change (s : Settings) (o : Overrides) : Except Refusal Settings :=
  let depth := (o.maxDepth.getD s.maxDepth).toNat
  let factor := (o.passFactor.getD s.passFactor).toNat
  let passes := (o.minPasses.getD s.minPasses).toNat
  if hd : 0 < depth then
    if hf : 0 < factor then
      if hp : 0 < passes then
        .ok ⟨o.sizeProperties.getD s.sizeProperties, o.stringMethods.getD s.stringMethods,
          depth, factor, passes, hd, hf, hp⟩
      else .error .passLimitTooSmall
    else .error .passLimitTooSmall
  else .error .depthTooSmall

end Settings

end ScriptTypes
