import TunnelConf.Command.Run

/-!
# The program

The files that a run may look at are read into a file tree, the run is worked out on that tree, and
the steps that it took there are then taken on the disk. Permission bits cannot be read here, so a
file counts as one that only its owner may read and write, and a replaced file becomes one.
-/

namespace TunnelConf

namespace Program

/-- The paths that lead to a path, the shorter ones first. -/
def leading (p : Text) : List Text :=
  let parts := Path.parts p
  (List.range parts.length).map fun n => List.intercalate ['/'] (parts.take (n + 1))

/-- The location that a path names where no directory is a link. -/
def place (here : Location) (p : Text) : Location :=
  (Path.components (Path.join here.path p)).foldl (fun l c =>
    match c with
    | .name n => l ++ [n]
    | .parent => l.dropLast
    | .root | .current => l) []

/-- The mode of files that only their owner may read and write. -/
def ownerMode : Nat := 0o600

/-- The node at a path on the disk. -/
def probe (p : Text) : IO (Option Node) := do
  match ← (IO.FS.readBinFile (String.ofList p)).toBaseIO with
  | .ok bytes => return some (.file ⟨bytes.toList, ownerMode⟩)
  | .error (.inappropriateType ..) => return some .directory
  | .error (.permissionDenied ..) => return some (.file ⟨[], 0⟩)
  | .error _ => return none

/-- Adds to the tree what is at a path and on the way there. -/
def addPath (t : FileTree) (p : Text) : IO FileTree :=
  (leading p).foldlM (fun t p => do
    if p.isEmpty then return t
    match ← probe p with
    | some (.file f) => return t.withFile (place t.here p) f
    | some .directory => return t.withDirectory (place t.here p)
    | none => return t) t

/-- Adds the temporary siblings of a file up to the first name that is free. -/
def addSiblings (p : Text) : Nat → Nat → FileTree → IO FileTree
  | 0, _, t => return t
  | fuel + 1, n, t => do
    let sibling := FileTree.temporaryPath p n
    if (← probe sibling).isNone then return t
    addSiblings p fuel (n + 1) (← addPath t sibling)

/-- How many names of temporary siblings are looked at. -/
def siblingLimit : Nat := 4096

/-- The paths at which settings may be found from a location. -/
def settingsPaths (here : Location) : List Text :=
  here.ancestors.flatMap fun l =>
    [Path.join l.path ".git".toList, Path.join l.path Settings.fileName]

/-- All that a run may look at. -/
def survey (v : Invocation) : IO FileTree := do
  let here := place [] (toString (← IO.currentDir)).toList
  let files := v.command.paths
  let wanted := settingsPaths here ++ v.config.toList ++ files ++ files.map FileTree.backupPath
  let t ← wanted.foldlM addPath ((FileTree.mk [] here).withDirectory here)
  files.foldlM (fun t p => addSiblings p siblingLimit 0 t) t

/-- Takes a step on the disk. -/
def perform : Step → IO Unit
  | .create p => IO.FS.writeFile (String.ofList p) ""
  | .write p content => IO.FS.writeFile (String.ofList p) (String.ofList content)
  | .sync _ => return
  | .setMode p _ => IO.setAccessRights (String.ofList p) ⟨⟨true, true, false⟩, {}, {}⟩
  | .copy source target => do
    IO.FS.writeBinFile (String.ofList target) (← IO.FS.readBinFile (String.ofList source))
    IO.setAccessRights (String.ofList target) ⟨⟨true, true, false⟩, {}, {}⟩
  | .rename source target => IO.FS.rename (String.ofList source) (String.ofList target)
  | .remove p => IO.FS.removeFile (String.ofList p)

def readInput : IO (List UInt8) := do
  return (← (← IO.getStdin).readBinToEnd).toList

/-- Random bytes for one scan of each file and some more. -/
def systemRandom (files : Nat) : IO RandomStream := do
  return .cycle (← IO.getRandomBytes (.ofNat (32 * (files + 4)))).toList

def logLine (r : LogRecord) : String :=
  (String.ofList r.event.level.name).toUpper ++ " " ++ String.ofList r.event.message

/-- Works out what the arguments ask for and does it. -/
def run (arguments : List Text) : IO UInt32 := do
  let filter := (← IO.getEnv "RUST_LOG").map String.toList
  let (tree, input, files) ← match Arguments.parse arguments with
    | .error _ => pure (FileTree.mk [] [], [], 0)
    | .ok v => do
      let input ← if v.command.readsInput then readInput else pure []
      pure (← survey v, input, v.command.paths.length)
  let c := (Surroundings.mk arguments input filter).run ⟨tree, ← systemRandom files⟩
  c.log.forM fun r => IO.eprintln (logLine r)
  c.steps.forM perform
  IO.print (String.ofList c.output)
  IO.eprint (String.ofList c.errors)
  return .ofNat c.code

end Program

end TunnelConf

def main (arguments : List String) : IO UInt32 :=
  TunnelConf.Program.run (arguments.map String.toList)
