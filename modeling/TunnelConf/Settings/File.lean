import TunnelConf.Settings.Layer
import TunnelConf.Toml.Parse

/-!
# Settings files

A settings file has the tables `edit`, `check` and `log`, each with one setting, and nothing else.
-/

namespace TunnelConf

namespace SettingsFile

/-- The members of a table, if all their keys are among the given ones. -/
def fields? (known : List String) : Toml.Value → Option Toml.Members
  | .table _ ms => if ms.all fun m => known.any fun k => k.toList == m.1 then some ms else none
  | _ => none

/-- A field that may be missing. -/
def field? {α : Type} (read : Toml.Value → Option α) (ms : Toml.Members) (key : String) :
    Option (Option α) :=
  match ms.find? key.toList with
  | none => some none
  | some v => (read v).map some

def flag? : Toml.Value → Option Bool
  | .flag b => some b
  | _ => none

def text? : Toml.Value → Option Text
  | .text t => some t
  | _ => none

/-- The key under which a date or time stands when it is read as a table. -/
def momentKey : Text := "$__toml_private_datetime".toList

/-- A table of texts. A date or time reads as a table with one entry. -/
def texts? : Toml.Value → Option (List (Text × Text))
  | .table _ ms => ms.mapM fun m => (text? m.2).map (Prod.mk m.1)
  | .moment t => some [(momentKey, t)]
  | _ => none

/-- A table with one known field, which may be missing as the table may. -/
def setting? {α : Type} (read : Toml.Value → Option α) (table key : String)
    (ms : Toml.Members) : Option (Option α) :=
  (field? (fun v => (fields? [key] v).bind fun inner => field? read inner key) ms table).map
    Option.join

/-- The layer that a settings file holds, if it is well formed. -/
def read? (content : Text) (source : Source) : Option Layer := do
  let ms ← fields? ["edit", "check", "log"] (.table .header (← Toml.parse? content))
  let backup ← setting? flag? "edit" "backup" ms
  let severity ← setting? texts? "check" "severity" ms
  let level ← setting? text? "log" "level" ms
  return ⟨backup.map (⟨·, source⟩), level.map (⟨·, source⟩),
    (severity.getD []).map fun e => (e.1, ⟨e.2, source⟩)⟩

end SettingsFile

end TunnelConf
