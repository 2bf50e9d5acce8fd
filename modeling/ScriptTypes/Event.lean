import ScriptTypes.Descriptor.Basic
import ScriptTypes.Name

/-!  -/

namespace ScriptTypes

inductive Level where
  | debug
  | info
  | warning
  | error
  deriving DecidableEq, Repr

namespace Level

def text : Level → String
  | debug => "DEBUG"
  | info => "INFO"
  | warning => "WARNING"
  | error => "ERROR"

def all : List Level := [debug, info, warning, error]

def severity : Level → Nat
  | debug => 10
  | info => 20
  | warning => 30
  | error => 40

end Level

inductive Event where
  | learned (scope : String) (name : Name) (type : Descriptor)
  | revised (scope : String) (name : Name) (type : Descriptor)
  | passed (pass changes : Nat)
  | converged (passes nodes : Nat)

namespace Event

def level : Event → Level
  | converged _ _ => .info
  | _ => .debug

def channel : Event → String
  | learned _ _ _ | revised _ _ _ => "jsinfer.engine.scope"
  | passed _ _ | converged _ _ => "jsinfer.engine.program"

def message : Event → String
  | learned scope name type => scope ++ ": " ++ name.plain ++ " is " ++ type.text
  | revised scope name type => scope ++ ": " ++ name.plain ++ " now " ++ type.text
  | passed pass changes => "pass " ++ toString pass ++ ": " ++ toString changes ++ " changes"
  | converged passes nodes =>
    "converged after " ++ toString passes ++ " passes over " ++ toString nodes ++ " nodes"

/-- The line of a log, under the time it is written. -/
def line (stamp : String) (e : Event) : String :=
  stamp ++ " - " ++ e.channel ++ " - " ++ e.level.text ++ " - " ++ e.message ++ "\n"

end Event

end ScriptTypes
