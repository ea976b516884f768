import TunnelConf.Command.Arguments
import TunnelConf.Command.JsonText
import TunnelConf.Edit.File
import TunnelConf.Log.Filter
import TunnelConf.Settings.Load

/-!
# Commands

What a run prints, how it ends and what it does to files, as a function of its arguments, its
standard input and the files that are there.
-/

namespace TunnelConf

/-- What came of a run. -/
structure Completion where
  code : Nat
  output : Text
  errors : Text
  log : List LogRecord
  workspace : Workspace
  steps : List Step

namespace Completion

/-- A run that did nothing but print. -/
def print (w : Workspace) (code : Nat) (output errors : Text) : Completion :=
  ⟨code, output, errors, [], w, []⟩

end Completion

namespace Command

def line (t : Text) : Text := t ++ ['\n']

/-- How an error on a file is reported. -/
def describeError (path : Text) : EditError → Text
  | .io e => line ("I/O error on ".toList ++ path ++ ": ".toList ++ e.message)
  | .malformedKey e => line ("malformed key: ".toList ++ e.message)
  | e => line e.detail

/-! ### Checks -/

/-- Checks files up to the first one that cannot be read. -/
def checkAll (w : Workspace) : List Text →
    Except (Text × EditError) (List CheckReport) × Workspace × List LogRecord
  | [] => (.ok [], w, [])
  | path :: paths =>
    let r := w.checkFile path
    let log := (Task.checkFile path).records r.events
    match r.result with
    | .error e => (.error (path, e), r.workspace, log)
    | .ok report =>
      let (rest, w, more) := checkAll r.workspace paths
      (rest.map (report :: ·), w, log ++ more)

def describeFinding (path : Text) (l : Located) : Text :=
  line (path ++ ':' :: Text.ofNat l.position.line ++ ':' :: Text.ofNat l.position.column ++
    ": ".toList ++ l.finding.slug ++ ": ".toList ++ l.finding.message)

/-- A line for each finding that is an error. -/
def plainReport (c : CheckReport) : Text :=
  (c.located.filter (·.severity == .error)).flatMap (describeFinding c.path)

def jsonFinding (l : Located) : JsonTree :=
  .object [("column", .number l.position.column), ("finding", .text l.finding.slug),
    ("length", .number l.span.len), ("line", .number l.position.line),
    ("message", .text l.finding.message), ("offset", .number l.span.start),
    ("severity", .text l.severity.name)]

def jsonReport (c : CheckReport) : JsonTree :=
  .object [("derived_public_key", .ofOption .text c.scan.derivedPublic),
    ("findings", .array (c.located.map jsonFinding)), ("has_errors", .bool c.scan.hasErrors),
    ("path", .text c.path)]

def renderReports (format : Format) (cs : List CheckReport) : Text :=
  match format with
  | .plain => cs.flatMap plainReport
  | .json => line ((JsonTree.object [("files", .array (cs.map jsonReport))]).render 0)

def runCheck (s : Settings) (files : List Text) (format : Format) (w : Workspace) : Completion :=
  match checkAll w files with
  | (.error (path, e), w, log) =>
    ⟨e.exitCode.number, [], describeError path e, log, w, []⟩
  | (.ok reports, w, log) =>
    let reports := reports.map (CheckReport.regrade s.grade)
    let code := if reports.any fun c => c.scan.hasErrors then ExitCode.validation else .success
    ⟨code.number, renderReports format reports, [], log, w, []⟩

/-! ### Edits -/

/-- The command line decides on backups before the settings do. -/
def editOptions (s : Settings) (flags : EditFlags) : EditOptions :=
  ⟨flags.dryRun, !flags.noBackup && (flags.backup || s.backup)⟩

def describeOutcome (path : Text) (flags : EditFlags) (o : Outcome) : Text :=
  if !o.changed then line ("No changes for ".toList ++ path)
  else if flags.dryRun then line ("Would update ".toList ++ path ++ " (dry run)".toList)
  else line ("Updated ".toList ++ path)

/-- What an edit prints unless it is to be quiet. -/
def renderOutcome (path : Text) (flags : EditFlags) (withDiff : Bool) (o : Outcome) : Text :=
  if flags.quiet then []
  else (if withDiff then o.diff.elim [] Diff.text else []) ++ describeOutcome path flags o

def warning (path : Text) (o : Outcome) (a : Annotation) : Text :=
  a.finding.elim [] fun f =>
    line ("warning: ".toList ++ path ++ " now has ".toList ++ f.slug ++ ": '".toList ++
      a.span.slice o.result ++ ['\''])

/-- Completes an edit that was the given task: what it prints if it succeeds is a function of its
outcome. -/
def completeEdit (path : Text) (t : Task) (r : Report Outcome) (output errors : Outcome → Text) :
    Completion :=
  let log := t.records r.events
  match r.result with
  | .error e => ⟨e.exitCode.number, [], describeError path e, log, r.workspace, r.steps⟩
  | .ok o => ⟨0, output o, errors o, log, r.workspace, r.steps⟩

/-- Where the value to add comes from; a hyphen names standard input. -/
def valueSource (value valueFile : Option Text) : Except Text ValueSource :=
  match value, valueFile with
  | some _, some _ => .error "VALUE and --value-file cannot be used together".toList
  | some v, none => .ok (.inline v)
  | none, some path => .ok (if Path.same path ['-'] then .input else .file path)
  | none, none => .error "'add' requires VALUE or --value-file".toList

def runAdd (s : Settings) (input : List UInt8) (file key : Text) (value valueFile : Option Text)
    (flags : EditFlags) (w : Workspace) : Completion :=
  match valueSource value valueFile with
  | .error reason => .print w ExitCode.invalidArguments.number [] (line reason)
  | .ok source =>
    let request : AddRequest := ⟨file, key, source, editOptions s flags⟩
    completeEdit file (.addValue file key) (w.addValue input request)
      (renderOutcome file flags true)
      fun o => o.introducedErrors.flatMap (warning file o)

/-- The diff of a filled in key would show the private key, so it is never printed. -/
def runFill (s : Settings) (file : Text) (flags : EditFlags) (w : Workspace) : Completion :=
  completeEdit file (.fillKeys file) (w.fillKeys file (editOptions s flags))
    (fun o => renderOutcome file flags false o ++
      o.scan.derivedPublic.elim [] fun key => line ("PublicKey = ".toList ++ key))
    fun _ => []

/-! ### Sections and keys -/

def jsonSection (s : Section) : JsonTree :=
  .object [("entries", .array (s.entries.map fun e =>
      .object [("key", .text e.key), ("values", .array (e.values.map .text))])),
    ("name", .text s.name)]

def runDisplay (file : Text) (wanted : Option Text) (json : Bool) (w : Workspace) : Completion :=
  match w.loadStructure file wanted with
  | .error e => .print w e.exitCode.number [] (describeError file e)
  | .ok d =>
    let d : Document := ⟨d.sections.filter fun s => wanted.all (· == s.name)⟩
    if json then
      .print w 0
        (line ((JsonTree.object [("sections", .array (d.sections.map jsonSection))]).render 0)) []
    else .print w 0 d.render []

def runGenerateKey (w : Workspace) : Completion :=
  let (pair, random) := KeyPair.generate w.random
  .print ⟨w.tree, random⟩ 0
    (line ("PrivateKey = ".toList ++ pair.secret.encode) ++
      line ("PublicKey = ".toList ++ pair.publicKey.encode)) []

def runPublicKey (input : List UInt8) (w : Workspace) : Completion :=
  match Text.ofUtf8? input with
  | none => .print w ExitCode.io.number []
      (line ("wgconf error: ".toList ++ IoError.invalidText.message))
  | some t =>
    match KeyPair.decode t with
    | .ok pair => .print w 0 (line pair.publicKey.encode) []
    | .error e =>
      let e := EditError.malformedKey e
      .print w e.exitCode.number [] (line e.message)

/-! ### Runs -/

/-- The files that a command is about. -/
def paths : Command → List Text
  | .check files _ => files
  | .add file _ _ valueFile _ => file :: valueFile.toList
  | .fillKeys file _ | .display file _ _ => [file]
  | .generateKey | .publicKey => []

/-- Whether a command reads standard input. -/
def readsInput : Command → Bool
  | .publicKey => true
  | .add _ _ value valueFile _ => (valueSource value valueFile).toOption == some .input
  | _ => false

def run (s : Settings) (input : List UInt8) (w : Workspace) : Command → Completion
  | .check files format => runCheck s files format w
  | .add file key value valueFile flags => runAdd s input file key value valueFile flags w
  | .fillKeys file flags => runFill s file flags w
  | .display file wanted json => runDisplay file wanted json w
  | .generateKey => runGenerateKey w
  | .publicKey => runPublicKey input w

end Command

namespace Invocation

/-- The more verbose of the level in the settings and the level that was asked for. -/
def logLevel (v : Invocation) (configured : LogLevel) : LogLevel :=
  let requested : LogLevel :=
    match v.verbosity with
    | 0 => .off
    | 1 => .info
    | 2 => .debug
    | _ => .trace
  if requested.rank ≤ configured.rank then configured else requested

/-- A filter that can be read counts, and the level otherwise. -/
def logFilter (v : Invocation) (configured : LogLevel) (given : Option Text) : LogFilter :=
  (given.bind LogFilter.ofText?).getD [⟨.whole, v.logLevel configured⟩]

end Invocation

/-- What a run is given: its arguments, the bytes of its standard input, and the text of a log
filter. -/
structure Surroundings where
  arguments : List Text
  input : List UInt8
  logFilter : Option Text

namespace Surroundings

def usage : Text :=
  "Usage: wgconf [OPTIONS] <check|add|fill-keys|show|genkey|pubkey> [ARGUMENTS]\n".toList

/-- The exit code of errors in the use of the command line. -/
def usageCode : Nat := 2

/-- Runs the command that the arguments ask for. The settings are read first, whatever it is. -/
def run (s : Surroundings) (w : Workspace) : Completion :=
  match Arguments.parse s.arguments with
  | .error .usage => .print w usageCode [] usage
  | .error .help => .print w 0 usage []
  | .error (.version program) => .print w 0 (Command.line (program ++ " 0.1.0".toList)) []
  | .ok v =>
    match Settings.load w.tree ⟨v.config, none⟩ with
    | .error e =>
      .print w ExitCode.invalidArguments.number []
        (Command.line ("wgconf: ".toList ++ e.message))
    | .ok settings =>
      let c := v.command.run settings s.input w
      let filter := v.logFilter settings.level s.logFilter
      { c with log := (⟨.configurationLoaded, none⟩ :: c.log).filter filter.admits }

end Surroundings

end TunnelConf
