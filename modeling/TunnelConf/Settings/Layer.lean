import TunnelConf.Log.Event
import TunnelConf.Finding
import TunnelConf.Text.Space
import TunnelConf.Toml.Table

/-!
# Layers of settings

Settings come in layers, and each value remembers the source of its layer. `Layer.merge` puts one
layer over another, field by field and finding by finding; `Layer.finish` checks what is in effect
and lists all problems in a fixed order.
-/

namespace TunnelConf

inductive SourceKind
  | builtIn
  | gitRoot
  | local
  | override
deriving DecidableEq, Repr

def SourceKind.label (k : SourceKind) : Text :=
  String.toList <| match k with
  | .builtIn => "built-in defaults"
  | .gitRoot => "git-root config"
  | .local => "local config"
  | .override => "override config"

/-- Where a layer comes from; the built-in one has no file. -/
structure Source where
  kind : SourceKind
  path : Option Text
deriving DecidableEq, Repr

def Source.describe (s : Source) : Text :=
  s.kind.label ++ s.path.elim [] fun p => " at ".toList ++ p

structure Sourced (α : Type) where
  value : α
  source : Source
deriving DecidableEq, Repr

/-- The effective settings. -/
structure Settings where
  backup : Bool
  level : LogLevel
  severity : List (Finding × Severity)
deriving DecidableEq, Repr

/-- The severity that is set for a finding. -/
def Settings.grade (s : Settings) (f : Finding) : Option Severity := s.severity.lookup f

inductive Problem
  | unknownLevel (level : Text)
  | unknownFinding (slug : Text)
  | invalidSeverity (severity : Text) (f : Finding)
deriving DecidableEq, Repr

namespace Problem

/-- The setting that has the problem. -/
def context (p : Problem) : Text :=
  String.toList <| match p with
  | .unknownLevel _ => "log.level"
  | _ => "check.severity"

def message : Problem → Text
  | .unknownLevel level =>
    "unknown level '".toList ++ level ++ "' (expected one of ".toList ++
      List.intercalate [',', ' '] (LogLevel.all.map LogLevel.name) ++ [')']
  | .unknownFinding slug => "unknown finding '".toList ++ slug ++ ['\'']
  | .invalidSeverity severity f =>
    "invalid severity '".toList ++ severity ++ "' for finding '".toList ++ f.slug ++
      "' (expected error or info)".toList

def describe (p : Sourced Problem) : Text :=
  p.value.context ++ ": ".toList ++ p.value.message ++ " (".toList ++ p.source.describe ++ [')']

/-- A line for each problem. -/
def describeAll (ps : List (Sourced Problem)) : Text :=
  List.intercalate ['\n'] (ps.map fun p => "- ".toList ++ describe p)

end Problem

/-- What one source says, or several merged ones. No finding appears twice. -/
structure Layer where
  backup : Option (Sourced Bool)
  level : Option (Sourced Text)
  severity : List (Text × Sourced Text)
deriving DecidableEq, Repr

namespace Layer

def empty : Layer := ⟨none, none, []⟩

def defaults : Layer :=
  let source := ⟨.builtIn, none⟩
  ⟨some ⟨true, source⟩, some ⟨"warn".toList, source⟩, []⟩

/-- Puts an entry in the place of the one with the same key, or behind all others. -/
def put {α : Type} (e : Text × α) : List (Text × α) → List (Text × α)
  | [] => [e]
  | d :: ds => if d.1 == e.1 then e :: ds else d :: put e ds

/-- Puts the layer `high` over `low`. -/
def merge (low high : Layer) : Layer where
  backup := high.backup.or low.backup
  level := high.level.or low.level
  severity := high.severity.foldl (fun es e => put e es) low.severity

/-- Puts a layer over the defaults, and the following ones over that. -/
def mergeAll (layers : List Layer) : Layer := layers.foldl merge defaults

/-- The level of a setting, up to white space and the case of its letters. -/
def levelOf? (t : Text) : Option LogLevel := LogLevel.ofName? (Text.lower (Text.trim t))

def checkLevel (level : Sourced Text) : Except (Sourced Problem) LogLevel :=
  match levelOf? level.value with
  | some l => .ok l
  | none => .error ⟨.unknownLevel level.value, level.source⟩

/-- A slug that is not known is the problem of an entry, whatever its value is. -/
def checkEntry (e : Text × Sourced Text) : Except (Sourced Problem) (Finding × Severity) :=
  match Finding.ofSlug? e.1, Severity.ofName? e.2.value with
  | none, _ => .error ⟨.unknownFinding e.1, e.2.source⟩
  | some f, none => .error ⟨.invalidSeverity e.2.value f, e.2.source⟩
  | some f, some s => .ok (f, s)

/-- The problem with a checked value. -/
def problem? {ε α : Type} : Except ε α → Option ε
  | .ok _ => none
  | .error e => some e

/-- The entries in the order of their slugs. -/
def entries (l : Layer) : List (Text × Sourced Text) :=
  l.severity.mergeSort fun a b => Text.ble a.1 b.1

def effectiveLevel (l : Layer) : Sourced Text :=
  l.level.getD ⟨"warn".toList, ⟨.builtIn, none⟩⟩

/-- The settings in effect, or all problems: that of the log level first, then those of the entries
by slug. -/
def finish (l : Layer) : Except (List (Sourced Problem)) Settings :=
  let level := checkLevel l.effectiveLevel
  let checked := l.entries.map checkEntry
  let problems := (problem? level).toList ++ checked.filterMap problem?
  match problems, level with
  | [], .ok level =>
    .ok ⟨l.backup.elim true Sourced.value, level, checked.filterMap Except.toOption⟩
  | problems, _ => .error problems

end Layer

end TunnelConf
