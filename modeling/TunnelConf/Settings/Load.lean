import TunnelConf.Settings.File
import TunnelConf.Storage.FileTree

/-!
# Loading settings

Settings files are looked for at the root of the repository around the working directory and in
the working directory, and one more may be named. Of layers with the same path the last one counts.
-/

namespace TunnelConf

inductive SettingsError
  | workingDirectory (attempted : Text) (e : IoError)
  | overrideMissing (path : Text)
  | io (path : Text) (e : IoError)
  | malformed (path : Text)
  | invalid (problems : List (Sourced Problem))
deriving DecidableEq, Repr

namespace SettingsError

def message : SettingsError → Text
  | .workingDirectory attempted e =>
    "failed to resolve working directory ".toList ++ attempted ++ ": ".toList ++ e.message
  | .overrideMissing path => "override config ".toList ++ path ++ " not found".toList
  | .io path e => "failed to read config ".toList ++ path ++ ": ".toList ++ e.message
  | .malformed path => "failed to parse config ".toList ++ path
  | .invalid problems =>
    "configuration validation failed:\n".toList ++ Problem.describeAll problems

end SettingsError

structure LoadOptions where
  override : Option Text
  workingDirectory : Option Text
deriving DecidableEq, Repr

namespace Settings

def fileName : Text := ".wgconf.toml".toList

/-- The path of the settings file in the nearest directory, from `l` upwards, that has an entry
`.git`. -/
def gitRootFile? (t : FileTree) (l : Location) : Option Text :=
  (l.ancestors.find? fun d => t.pathExists (Path.join d.path ".git".toList)).map fun d =>
    Path.join d.path fileName

/-- The sources that may apply at a location, in ascending precedence. -/
def candidates (t : FileTree) (l : Location) (override : Option Text) : List Source :=
  ((gitRootFile? t l).map fun p => ⟨.gitRoot, some p⟩).toList ++
    [⟨.local, some (Path.join l.path fileName)⟩] ++
    (override.map fun p => ⟨.override, some p⟩).toList

/-- Adds a source behind the others, in the place of one with the same path. -/
def addSource (ss : List Source) (s : Source) : List Source :=
  ss.filter (fun other => other.path.map Path.components != s.path.map Path.components) ++ [s]

/-- The sources whose files exist, each path once, where it has the highest precedence. -/
def keepLast (t : FileTree) (ss : List Source) : List Source :=
  (ss.filter fun s => s.path.any t.pathExists).foldl addSource []

/-- The sources to read, in ascending precedence. -/
def discover (t : FileTree) (l : Location) (override : Option Text) :
    Except SettingsError (List Source) :=
  match override.map (Path.join l.path) with
  | some path =>
    if t.pathExists path then .ok (keepLast t (candidates t l (some path)))
    else .error (.overrideMissing path)
  | none => .ok (keepLast t (candidates t l none))

def readLayer (t : FileTree) (s : Source) : Except SettingsError Layer :=
  match s.path with
  | none => .ok .empty
  | some path =>
    match t.readText path with
    | .error e => .error (.io path e)
    | .ok content =>
      match SettingsFile.read? content s with
      | some layer => .ok layer
      | none => .error (.malformed path)

/-- The location from which settings files are looked for. -/
def startingPoint (t : FileTree) (o : LoadOptions) : Except SettingsError Location :=
  match o.workingDirectory with
  | none => .ok t.here
  | some d => (t.canonical d).mapError (.workingDirectory d)

def load (t : FileTree) (o : LoadOptions) : Except SettingsError Settings := do
  let l ← startingPoint t o
  let layers ← (← discover t l o.override).mapM (readLayer t)
  (Layer.mergeAll layers).finish.mapError .invalid

end Settings

end TunnelConf
