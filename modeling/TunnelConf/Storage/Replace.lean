import TunnelConf.Storage.FileTree
import TunnelConf.Text.Number

/-!
# Replacing a file

New content is written to a temporary sibling that takes the place of the file in one last step.
The steps are data and run one after the other, each may fail, and a run records the tree after
every step that was done, so that statements about interrupted runs can be made.
-/

namespace TunnelConf

inductive Step
  | create (p : Text)
  | write (p content : Text)
  | sync (p : Text)
  | setMode (p : Text) (mode : Nat)
  | copy (source target : Text)
  | rename (source target : Text)
  | remove (p : Text)
deriving DecidableEq, Repr

namespace Step

/-- Applies `f` to a file that was opened before, so that its mode does not matter. -/
def modifyFile (t : FileTree) (p : Text) (f : File → File) : Except IoError FileTree := do
  let l ← t.locate p
  match t.get? l with
  | some (.file old) => return t.insert l (.file (f old))
  | some .directory => throw .isDirectory
  | none => throw .notFound

/-- An empty file at a path; a file that is there loses its content only. -/
def runCreate (t : FileTree) (p : Text) : Except IoError FileTree := do
  let l ← t.locate p
  match t.get? l with
  | some (.file old) =>
    if old.writable then return t.insert l (.file { old with content := [] }) else throw .denied
  | some .directory => throw .isDirectory
  | none => return t.insert l (.file ⟨[], FileTree.newFileMode⟩)

/-- A copy has the content and the mode of its source, also if it takes the place of a file. -/
def runCopy (t : FileTree) (source target : Text) : Except IoError FileTree := do
  match ← t.node source with
  | .directory => throw .invalidSource
  | .file f =>
    if !f.readable then throw .denied
    let l ← t.locate target
    match t.get? l with
    | some .directory => throw .isDirectory
    | some (.file old) => if old.writable then return t.insert l (.file f) else throw .denied
    | none => return t.insert l (.file f)

/-- A file takes the place of what is at the target, which cannot be a directory. -/
def runRename (t : FileTree) (source target : Text) : Except IoError FileTree := do
  let l ← t.locate source
  match t.get? l with
  | some (.file f) =>
    if target.getLast? = some '/' && (Path.fileName? target).isSome then throw .notDirectory
    let last := (Path.parts target).getLast?.bind Path.component?
    match last with
    | some (.name _) =>
      let l' ← t.locate target
      match t.get? l' with
      | some .directory => throw .isDirectory
      | _ => return (t.erase l).insert l' (.file f)
    | _ => throw .busy
  | some .directory => throw .isDirectory
  | none => throw .notFound

def run (t : FileTree) : Step → Except IoError FileTree
  | .create p => runCreate t p
  | .write p content => modifyFile t p fun f => { f with content := Text.utf8 content }
  | .sync p => modifyFile t p id
  | .setMode p mode => modifyFile t p fun f => { f with mode }
  | .copy source target => runCopy t source target
  | .rename source target => runRename t source target
  | .remove p => do
    let l ← t.locate p
    match t.get? l with
    | some (.file _) => return t.erase l
    | some .directory => throw .isDirectory
    | none => throw .notFound

end Step

/-- The faults that strike steps, whatever the tree is like. -/
abbrev Faults := Step → Option IoError

/-- What came of a sequence of steps: the result, the last tree, and each step done with the tree
after it. -/
structure Run where
  result : Except IoError Unit
  tree : FileTree
  history : List (Step × FileTree)

namespace Run

/-- Runs steps until one fails. -/
def ofSteps (faults : Faults) : List Step → FileTree → Run
  | [], t => ⟨.ok (), t, []⟩
  | s :: ss, t =>
    match (faults s).elim (s.run t) .error with
    | .error e => ⟨.error e, t, []⟩
    | .ok t =>
      let rest := ofSteps faults ss t
      { rest with history := (s, t) :: rest.history }

/-- One run after another; the second one starts where the first one ended and has the result. -/
def andThen (r : Run) (next : FileTree → Run) : Run :=
  let n := next r.tree
  { n with history := r.history ++ n.history }

def steps (r : Run) : List Step := r.history.map Prod.fst

end Run

namespace FileTree

def backupPath (p : Text) : Text := Path.withSuffix p "bak".toList

/-- The names that a temporary sibling of a file can have. -/
def temporaryPath (p : Text) (n : Nat) : Text :=
  Path.withSuffix p ("tmp".toList ++ if n = 0 then [] else Text.ofNat n)

/-- The first name of a temporary sibling under which nothing exists. The count goes as far as it has
to, where a counter of 32 bits would not come to an end if it has used up its numbers. -/
def freshSibling (t : FileTree) (p : Text) : Text :=
  let count := t.nodes.length + 1
  let candidates := (List.range count).map (temporaryPath p)
  (candidates.find? fun c => !t.pathExists c).getD (temporaryPath p count)

/-- The steps that fill a temporary file. -/
def fillSteps (temporary content : Text) : List Step :=
  [.create temporary, .write temporary content, .sync temporary]

/-- The steps that put a temporary file in the place of a file. -/
def swapSteps (p temporary : Text) (mode : Nat) (backup : Bool) : List Step :=
  .setMode temporary mode ::
    ((if backup then [.copy p (backupPath p)] else []) ++ [.rename temporary p])

/-- Replaces the content of a file, which keeps its mode. With `backup` the file is copied first.
If the temporary file cannot take the place of the file, it is removed. -/
def replaceContent (faults : Faults) (t : FileTree) (p content : Text) (backup : Bool) : Run :=
  match t.mode p with
  | .error e => ⟨.error e, t, []⟩
  | .ok mode =>
    let temporary := t.freshSibling p
    let filled := Run.ofSteps faults (fillSteps temporary content) t
    match filled.result with
    | .error _ => filled
    | .ok _ =>
      filled.andThen fun t =>
        let swapped := Run.ofSteps faults (swapSteps p temporary mode backup) t
        match swapped.result with
        | .ok _ => swapped
        | .error e =>
          { swapped.andThen (Run.ofSteps faults [.remove temporary]) with result := .error e }

/-- Replaces the content of a file when no fault strikes. -/
def writeAtomic (t : FileTree) (p content : Text) (backup : Bool) : Run :=
  t.replaceContent (fun _ => none) p content backup

end FileTree

end TunnelConf
