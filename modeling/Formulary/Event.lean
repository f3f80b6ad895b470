/-
What a session reports while it works, and the log lines of it. A line has a level, the name of the
log and a message with its category in brackets.
-/
import Formulary.ReadError
import Formulary.Forest.Basic

namespace Formulary

/-- Something a session reports. -/
inductive Event where
  | reading (text : String)
  | refused (error : ReadError)
  | bound (name : String) (root : NodeId)
  | built (trees nodes width : Nat)
  | evaluating (root : NodeId) (width : Nat)
  deriving DecidableEq, Repr

namespace Event

/-- How much an event matters. -/
inductive Level where
  | debug
  | info
  | warn
  deriving DecidableEq, Repr

/-- How a level is written. -/
def Level.name : Level → String
  | debug => "DEBUG"
  | info => "INFO"
  | warn => "WARN"

/-- The level of an event. -/
def level : Event → Level
  | refused _ => .warn
  | bound _ _ => .info
  | _ => .debug

/-- What an event has to do with. -/
def category : Event → String
  | bound _ _ => "VARS"
  | evaluating _ _ => "EVAL"
  | _ => "PARSE"

/-- The wording of an event. -/
def message : Event → String
  | reading text => "parse \"" ++ text ++ "\""
  | refused error => error.message
  | bound name root => "bind " ++ name ++ " -> node " ++ toString root
  | built trees nodes width =>
    "built tree " ++ toString trees ++ " nodes=" ++ toString nodes ++ " width=" ++ toString width
  | evaluating root width => "evaluate node " ++ toString root ++ " x" ++ toString width

/-- The name of the log. -/
def target : String := "formula_engine"

/-- The log line of an event. -/
def line (e : Event) : String :=
  e.level.name ++ " " ++ target ++ " [" ++ e.category ++ "] " ++ e.message

end Event

end Formulary
