import TunnelConf.Log.Event

/-!
# Log records

Events of a run, each with the task that was at work when it happened. All that an addition, a fill
or a check of one file does belongs to its task.
-/

namespace TunnelConf

inductive Task
  | addValue (path key : Text)
  | fillKeys (path : Text)
  | checkFile (path : Text)
deriving DecidableEq, Repr

namespace Task

/-- The part of the program that tasks belong to. -/
def origin : Text := "wgconf_edit_core::engine".toList

def name (t : Task) : Text :=
  String.toList <| match t with
  | .addValue _ _ => "add_value"
  | .fillKeys _ => "fill_keys"
  | .checkFile _ => "check_file"

/-- The named values that a task carries. -/
def fields : Task → List (Text × Text)
  | .addValue path key => [("path".toList, path), ("key".toList, key)]
  | .fillKeys path | .checkFile path => [("path".toList, path)]

end Task

structure LogRecord where
  event : Event
  task : Option Task
deriving DecidableEq, Repr

/-- The records of events that happened during a task. -/
def Task.records (t : Task) (events : List Event) : List LogRecord :=
  events.map fun e => ⟨e, some t⟩

end TunnelConf
