import TunnelConf.Text.Ascii
import TunnelConf.Text.Number

/-!
# Events

What happens during a run is recorded as a list of events. An event has a level, belongs to a part
of the program, and carries named fields.
-/

namespace TunnelConf

inductive LogLevel
  | off
  | error
  | warn
  | info
  | debug
  | trace
deriving DecidableEq, Repr

namespace LogLevel

def all : List LogLevel := [.off, .error, .warn, .info, .debug, .trace]

def name (l : LogLevel) : Text :=
  String.toList <| match l with
  | .off => "off"
  | .error => "error"
  | .warn => "warn"
  | .info => "info"
  | .debug => "debug"
  | .trace => "trace"

/-- How verbose a level is. -/
def rank (l : LogLevel) : Nat := all.idxOf l

def ofName? (t : Text) : Option LogLevel := all.find? (·.name == t)

/-- A level by its name in any letter case or by its rank. -/
def ofDirective? (t : Text) : Option LogLevel :=
  (ofName? (Text.lower t)).or (Text.unsigned? t >>= fun n => all[n]?)

end LogLevel

inductive Event
  | configurationLoaded
  | keyAbsent
  | keyFound
  | keyGenerated
  | scanned
  | scanSkipped
  | refreshSkipped
  | autofillApplied
  | resultHasFindings
  | fileChecked
  | fileFilled
  | backupWritten
deriving DecidableEq, Repr

namespace Event

def level : Event → LogLevel
  | .scanSkipped | .refreshSkipped => .warn
  | .fileFilled => .info
  | _ => .debug

/-- The part of the program that filters know an event by. -/
def origin (e : Event) : Text :=
  String.toList <| match e with
  | .configurationLoaded => "wgconf_cli"
  | .keyAbsent | .keyFound => "wgconf_edit_core::merge"
  | .keyGenerated | .scanned => "wgconf_edit_core::annotate"
  | .scanSkipped | .refreshSkipped | .autofillApplied => "wgconf_edit_core::session"
  | .resultHasFindings | .fileChecked | .fileFilled => "wgconf_edit_core::engine"
  | .backupWritten => "wgconf_edit_core::fs"

def message (e : Event) : Text :=
  String.toList <| match e with
  | .configurationLoaded => "loaded configuration"
  | .keyAbsent => "key absent, appending a new line"
  | .keyFound => "merging into existing line"
  | .keyGenerated => "generated private key for empty value"
  | .scanned => "scanned document"
  | .scanSkipped => "scan requested while another scan is running; skipping"
  | .refreshSkipped => "refresh requested while another scan is running; skipping"
  | .autofillApplied => "applied private key autofill"
  | .resultHasFindings => "edited document has findings"
  | .fileChecked => "checked configuration"
  | .fileFilled => "generated private key"
  | .backupWritten => "wrote backup"

/-- The names of the fields, the message among them. -/
def fields (e : Event) : List Text :=
  List.map String.toList <| "message" :: match e with
  | .configurationLoaded => ["level", "backup"]
  | .keyAbsent => ["key"]
  | .keyFound => ["key", "start", "len"]
  | .keyGenerated | .autofillApplied => ["offset"]
  | .scanned => ["annotations", "has_errors", "autofill"]
  | .resultHasFindings | .fileChecked => ["errors"]
  | .backupWritten => ["backup"]
  | .scanSkipped | .refreshSkipped | .fileFilled => []

end Event

end TunnelConf
