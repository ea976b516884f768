import TunnelConf.Document
import TunnelConf.Edit.Outcome
import TunnelConf.Position
import TunnelConf.Storage.Replace

/-!
# Edits and checks of files

What the command line does to files, as functions on a file tree and a random stream. A file is
written only by an edit that changes it and is not a dry run.
-/

namespace TunnelConf

/-- What an operation can change. -/
structure Workspace where
  tree : FileTree
  random : RandomStream

/-- The result of an operation, the workspace after it, the steps taken on files and the events. -/
structure Report (α : Type) where
  result : Except EditError α
  workspace : Workspace
  steps : List Step
  events : List Event

namespace Report

/-- An operation that failed before it did anything. -/
def fail {α : Type} (w : Workspace) (e : EditError) : Report α := ⟨.error e, w, [], []⟩

end Report

structure EditOptions where
  dryRun : Bool := false
  backup : Bool := true
deriving DecidableEq, Repr

structure AddRequest where
  path : Text
  key : Text
  value : ValueSource
  options : EditOptions
deriving DecidableEq, Repr

/-- A finding with the position at which it starts. -/
structure Located where
  position : Position
  span : Span
  severity : Severity
  finding : Finding
deriving DecidableEq, Repr

structure CheckReport where
  path : Text
  text : Text
  scan : Scan
deriving DecidableEq, Repr

namespace CheckReport

/-- The annotations that carry a finding, in order. -/
def located (c : CheckReport) : List Located :=
  c.scan.annotations.filterMap fun a =>
    a.finding.map fun f => ⟨.ofOffset c.text a.span.start, a.span, a.severity, f⟩

def exitCode (c : CheckReport) : ExitCode := if c.scan.hasErrors then .validation else .success

def regrade (grade : Finding → Option Severity) (c : CheckReport) : CheckReport :=
  { c with scan := c.scan.regrade grade }

end CheckReport

namespace Workspace

def readText (w : Workspace) (path : Text) : Except EditError Text :=
  (w.tree.readText path).mapError .io

/-- Writes a draft to its file, unless nothing has changed or the run is dry. -/
def finish (w : Workspace) (path : Text) (options : EditOptions) (d : Draft) : Report Outcome :=
  let outcome := d.outcome path
  if !d.changed || options.dryRun then
    ⟨.ok outcome, ⟨w.tree, d.random⟩, [], d.events⟩
  else
    let run := w.tree.writeAtomic path d.result options.backup
    let backedUp := run.steps.any fun s => s matches .copy ..
    ⟨(run.result.mapError EditError.io).map fun _ => outcome, ⟨run.tree, d.random⟩, run.steps,
      d.events ++ if backedUp then [.backupWritten] else []⟩

/-- What was drawn and recorded stays so when the draft cannot be finished. -/
def edit (w : Workspace) (path : Text) (options : EditOptions) (d : Except EditError Draft) :
    Report Outcome :=
  match d with
  | .error e => .fail w e
  | .ok d => w.finish path options d

/-- Adds a value to a key of a file. -/
def addValue (w : Workspace) (input : List UInt8) (q : AddRequest) : Report Outcome :=
  w.edit q.path q.options do
    let content ← w.readText q.path
    let value ← q.value.load w.tree input
    Draft.ofMerge content q.key value w.random

/-- Fills the first empty private key of a file in. -/
def fillKeys (w : Workspace) (path : Text) (options : EditOptions) : Report Outcome :=
  w.edit path options do
    let content ← w.readText path
    Draft.ofFill content w.random

def checkFile (w : Workspace) (path : Text) : Report CheckReport :=
  match w.readText path with
  | .error e => .fail w e
  | .ok content =>
    let (scan, random) := Scan.ofText content w.random
    ⟨.ok ⟨path, content, scan⟩, ⟨w.tree, random⟩, [], scan.events ++ [.fileChecked]⟩

/-- The sections of a file; a section that is asked for has to be there. -/
def loadStructure (w : Workspace) (path : Text) (wanted : Option Text) :
    Except EditError Document := do
  let document := Document.parse (← w.readText path)
  match wanted with
  | none => return document
  | some name =>
    if (document.find? name).isSome then return document else throw (.noSection name path)

end Workspace

end TunnelConf
