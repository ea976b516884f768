import TunnelConf.Command.Run
import TunnelConf.Proofs.Command.JsonText
import TunnelConf.Proofs.Scan.Findings
import TunnelConf.Proofs.Session.Refresh

/-!
# Checks of files

A check reads files up to the first that cannot be read (`Command.checkAll_cases`), and what it reports is about
what is found in their texts. The exit code, the lines and the entries of a JSON report come from that by three
ways; main statement: `check_reports_findings`, they say the same.
-/

namespace TunnelConf

open Text

/-! ### What is read -/

namespace FileTree

/-- The files with their texts, or the first that cannot be read. -/
def readAll (tree : FileTree) : List Text → Except (Text × EditError) (List (Text × Text))
  | [] => .ok []
  | path :: paths =>
    match tree.readText path with
    | .error e => .error (path, .io e)
    | .ok t => (readAll tree paths).map ((path, t) :: ·)

/-- The files can all be read, and say what they say in `sources`. -/
structure Reads (tree : FileTree) (files : List Text) (sources : List (Text × Text)) : Prop where
  files : sources.map Prod.fst = files
  texts : ∀ source ∈ sources, tree.readText source.1 = .ok source.2

/-- The first of the files that cannot be read is `path`, for the reason `e`. -/
def FailsAt (tree : FileTree) (files : List Text) (path : Text) (e : IoError) : Prop :=
  ∃ before after, files = before ++ path :: after ∧ (∀ p ∈ before, ∃ t, tree.readText p = .ok t) ∧
    tree.readText path = .error e

variable {tree : FileTree} {files : List Text} {sources : List (Text × Text)}

theorem readAll_eq_ok_iff : tree.readAll files = .ok sources ↔ tree.Reads files sources := by
  induction files generalizing sources with
  | nil =>
    constructor
    · intro h
      obtain rfl := Except.ok.inj h
      exact ⟨rfl, by simp⟩
    · rintro ⟨hfiles, -⟩
      rw [List.map_eq_nil_iff.1 hfiles]
      rfl
  | cons path files ih =>
    rw [readAll]
    cases hread : tree.readText path with
    | error e =>
      constructor
      · intro h
        cases h
      · intro h
        obtain ⟨source, rest, rfl, rfl, -⟩ := List.map_eq_cons_iff.1 h.files
        rw [h.texts source (by simp)] at hread
        cases hread
    | ok t =>
      constructor
      · intro h
        cases hrest : tree.readAll files with
        | error x => rw [hrest] at h; cases h
        | ok rest =>
          rw [hrest] at h
          obtain rfl := Except.ok.inj h
          obtain ⟨hfiles, htexts⟩ := ih.1 hrest
          exact ⟨congrArg (path :: ·) hfiles, List.forall_mem_cons.2 ⟨hread, htexts⟩⟩
      · intro h
        obtain ⟨⟨p, t'⟩, rest, rfl, rfl, hrest⟩ := List.map_eq_cons_iff.1 h.files
        obtain rfl := Except.ok.inj (hread.symm.trans (h.texts _ (List.mem_cons_self ..)))
        rw [ih.2 ⟨hrest, fun source hs => h.texts source (List.mem_cons_of_mem _ hs)⟩]
        rfl

theorem failsAt_of_readAll {path : Text} {e : EditError} (h : tree.readAll files = .error (path, e)) :
    ∃ cause, e = .io cause ∧ tree.FailsAt files path cause := by
  induction files with
  | nil => cases h
  | cons p files ih =>
    rw [readAll] at h
    cases hread : tree.readText p with
    | error cause =>
      rw [hread] at h
      obtain ⟨rfl, rfl⟩ := Prod.mk.inj (Except.error.inj h)
      exact ⟨cause, rfl, [], files, rfl, by simp, hread⟩
    | ok t =>
      rw [hread] at h
      cases hrest : tree.readAll files with
      | ok sources => rw [hrest] at h; cases h
      | error x =>
        rw [hrest] at h
        obtain rfl := Except.error.inj h
        obtain ⟨cause, he, before, after, hfiles, hbefore, hpath⟩ := ih hrest
        exact ⟨cause, he, p :: before, after, by rw [hfiles]; rfl,
          List.forall_mem_cons.2 ⟨⟨t, hread⟩, hbefore⟩, hpath⟩

end FileTree

/-! ### What is reported -/

/-- The report of a file with random bytes from further on in the stream. -/
def CheckReport.IsOf (r : RandomStream) (source : Text × Text) (c : CheckReport) : Prop :=
  ∃ n, c = .ofText source.1 source.2 (r.advance n)

theorem CheckReport.IsOf.of_advance {r : RandomStream} {n : Nat} {source : Text × Text} {c : CheckReport}
    (h : IsOf (r.advance n) source c) : IsOf r source c := by
  obtain ⟨m, rfl⟩ := h
  exact ⟨n + m, by rw [RandomStream.advance_advance]⟩

namespace Command

/-- The outcome of checks is that of reading, with a report of each text. -/
theorem checkAll_readAll (w : Workspace) (files : List Text) :
    match w.tree.readAll files with
    | .error x => (checkAll w files).1 = .error x
    | .ok sources => ∃ reports, (checkAll w files).1 = .ok reports ∧
        List.Forall₂ (CheckReport.IsOf w.random) sources reports := by
  induction files generalizing w with
  | nil => exact ⟨[], rfl, .nil⟩
  | cons path files ih =>
    rw [FileTree.readAll, checkAll, Workspace.checkFile, Workspace.readText]
    cases hread : w.tree.readText path with
    | error e => rfl
    | ok t =>
      -- the files that are left are read from the same tree
      have hrest := ih ⟨w.tree, (Scan.ofText t w.random).2⟩
      cases hall : w.tree.readAll files with
      | error x =>
        rw [hall] at hrest
        simp only [Except.mapError, Except.map, hrest]
      | ok sources =>
        rw [hall] at hrest
        obtain ⟨reports, hreports, hof⟩ := hrest
        rw [Scan.random_ofText] at hof
        refine ⟨.ofText path t w.random :: reports, ?_, .cons ⟨0, rfl⟩ (hof.imp fun _ _ hc => hc.of_advance)⟩
        simp only [Except.mapError, Except.map, hreports]
        rfl

/-- The errors that are found in the texts, each with its file. -/
def errorsIn (grade : Finding → Option Severity) (sources : List (Text × Text)) : List (Text × Located) :=
  sources.flatMap fun source =>
    ((findings grade source.2).filter (·.severity == .error)).map fun l => (source.1, l)

/-- The report of a file as an entry, with the key that is told. -/
def entryOf (grade : Finding → Option Severity) (source : Text × Text) (key : Option Text) : JsonTree :=
  .object [("derived_public_key", .ofOption .text key),
    ("findings", .array ((findings grade source.2).map jsonFinding)),
    ("has_errors", .bool ((findings grade source.2).any (·.severity == .error))), ("path", .text source.1)]

variable {grade : Finding → Option Severity} {r : RandomStream} {sources : List (Text × Text)}
  {reports : List CheckReport}

theorem errorsIn_cons (source : Text × Text) : errorsIn grade (source :: sources) =
    ((findings grade source.2).filter (·.severity == .error)).map (fun l => (source.1, l)) ++
      errorsIn grade sources := rfl

theorem errorsIn_eq_nil_iff (grade : Finding → Option Severity) (sources : List (Text × Text)) :
    errorsIn grade sources = [] ↔ ¬ ∃ source ∈ sources, ∃ l ∈ findings grade source.2, l.severity = .error := by
  simp [errorsIn, List.filter_eq_nil_iff]

theorem jsonReport_regrade (path t : Text) (r : RandomStream) :
    jsonReport ((CheckReport.ofText path t r).regrade grade) =
      entryOf grade (path, t) (Scan.ofText t r).1.derivedPublic := by
  rw [jsonReport, CheckReport.located_regrade, CheckReport.hasErrors_regrade]
  rfl

theorem flatMap_plainReport (h : List.Forall₂ (CheckReport.IsOf r) sources reports) :
    (reports.map (CheckReport.regrade grade)).flatMap plainReport =
      (errorsIn grade sources).flatMap fun e => describeFinding e.1 e.2 := by
  induction h with
  | nil => rfl
  | @cons source c sources reports hc _ ih =>
    obtain ⟨n, rfl⟩ := hc
    rw [List.map_cons, List.flatMap_cons, ih, errorsIn_cons, List.flatMap_append, List.flatMap_map,
      plainReport, CheckReport.located_regrade]
    rfl

theorem any_hasErrors_iff (h : List.Forall₂ (CheckReport.IsOf r) sources reports) :
    (reports.map (CheckReport.regrade grade)).any (fun c => c.scan.hasErrors) = true ↔
      errorsIn grade sources ≠ [] := by
  induction h with
  | nil => simp [errorsIn]
  | @cons source c sources reports hc _ ih =>
    obtain ⟨n, rfl⟩ := hc
    rw [List.map_cons, List.any_cons, Bool.or_eq_true, ih, CheckReport.hasErrors_regrade, errorsIn_cons]
    simp [or_iff_not_imp_left]

/-- The keys that are told of some files. -/
def Told (r : RandomStream) : List (Text × Text) → List (Option Text) → Prop :=
  List.Forall₂ fun source key => ∃ n, key = (Scan.ofText source.2 (r.advance n)).1.derivedPublic

/-- The entries differ from one stream to another in the keys alone. -/
theorem map_jsonReport (grade : Finding → Option Severity)
    (h : List.Forall₂ (CheckReport.IsOf r) sources reports) :
    ∃ keys, (reports.map (CheckReport.regrade grade)).map jsonReport =
        List.zipWith (entryOf grade) sources keys ∧ Told r sources keys := by
  induction h with
  | nil => exact ⟨[], rfl, .nil⟩
  | @cons source c sources reports hc _ ih =>
    obtain ⟨n, rfl⟩ := hc
    obtain ⟨keys, hentries, hkeys⟩ := ih
    refine ⟨(Scan.ofText source.2 (r.advance n)).1.derivedPublic :: keys, ?_, .cons ⟨n, rfl⟩ hkeys⟩
    rw [List.map_cons, List.map_cons, hentries, jsonReport_regrade]
    rfl

/-- The report on some files as JSON. -/
def jsonOutput (entries : List JsonTree) : Text := line ((JsonTree.object [("files", .array entries)]).render 0)

theorem jsonOutput_inj {entries entries' : List JsonTree} : jsonOutput entries = jsonOutput entries' ↔
    entries = entries' := by
  constructor
  · intro h
    have htree := JsonTree.render_inj.1 (List.append_cancel_right h)
    simpa using htree
  · rintro rfl
    rfl

variable {s : Settings} {files : List Text} {w : Workspace}

theorem runCheck_of_error {path : Text} {e : EditError} (h : w.tree.readAll files = .error (path, e))
    (format : Format) :
    (runCheck s files format w).output = [] ∧ (runCheck s files format w).code = e.exitCode.number ∧
      (runCheck s files format w).errors = describeError path e := by
  have hall := checkAll_readAll w files
  rw [h] at hall
  obtain ⟨w', log, hc⟩ : ∃ w' log, checkAll w files = (.error (path, e), w', log) := ⟨_, _, Prod.ext hall rfl⟩
  simp [runCheck, hc]

theorem runCheck_of_ok (h : w.tree.readAll files = .ok sources) (s : Settings) :
    ∃ keys, Told w.random sources keys ∧
      (∀ format, (runCheck s files format w).code = (if errorsIn s.grade sources = [] then 0 else 6) ∧
        (runCheck s files format w).errors = []) ∧
      (runCheck s files .plain w).output = (errorsIn s.grade sources).flatMap (fun e => describeFinding e.1 e.2) ∧
      (runCheck s files .json w).output = jsonOutput (List.zipWith (entryOf s.grade) sources keys) := by
  have hall := checkAll_readAll w files
  rw [h] at hall
  obtain ⟨reports, hreports, hof⟩ := hall
  obtain ⟨w', log, hc⟩ : ∃ w' log, checkAll w files = (.ok reports, w', log) := ⟨_, _, Prod.ext hreports rfl⟩
  obtain ⟨keys, hentries, hkeys⟩ := map_jsonReport s.grade hof
  simp only [runCheck, hc]
  refine ⟨keys, hkeys, fun format => ⟨?_, trivial⟩, flatMap_plainReport hof, ?_⟩
  · simp only [any_hasErrors_iff hof, ite_not]
    split <;> rfl
  · rw [renderReports, hentries]
    rfl

/-- The line on an error. -/
def plainLine (path : Text) (p : Position) (f : Finding) : Text :=
  path ++ ':' :: ofNat p.line ++ ':' :: ofNat p.column ++ ": ".toList ++ f.slug ++ ": ".toList ++ f.message

theorem describeFinding_eq (path : Text) (l : Located) :
    describeFinding path l = line (plainLine path l.position l.finding) := rfl

/-- The name of the file is printed as it is, and nothing else ends a line. -/
theorem count_lf_plainLine (path : Text) (p : Position) (f : Finding) :
    (plainLine path p f).count '\n' = path.count '\n' := by
  have hnumber : ∀ n, (ofNat n).count '\n' = 0 := fun n =>
    List.count_eq_zero.2 fun h => absurd (JsonTree.isDigit_of_mem_ofNat h) (by decide)
  have hslug : f.slug.count '\n' = 0 := by cases f <;> decide
  have hmessage : f.message.count '\n' = 0 := by cases f <;> decide
  simp [plainLine, hnumber, hslug, hmessage]

/-- There are as many lines as errors, and those that the names of their files make more. -/
theorem count_lf_plainLines (errors : List (Text × Located)) :
    (errors.flatMap fun e => line (plainLine e.1 e.2.position e.2.finding)).count '\n' =
      errors.length + (errors.map fun e => e.1.count '\n').sum := by
  induction errors with
  | nil => rfl
  | cons e errors ih =>
    rw [List.flatMap_cons, List.count_append, ih, line, List.count_append, count_lf_plainLine, List.length_cons,
      List.map_cons, List.sum_cons]
    simp only [List.count_singleton_self]
    omega

theorem count_lf_eq_length_iff (errors : List (Text × Located)) :
    (errors.flatMap fun e => line (plainLine e.1 e.2.position e.2.finding)).count '\n' = errors.length ↔
      ∀ e ∈ errors, '\n' ∉ e.1 := by
  rw [count_lf_plainLines, Nat.add_eq_left, List.sum_eq_zero_iff_forall_eq_nat]
  simp only [List.forall_mem_map, List.count_eq_zero]

end Command

/-! ### What a JSON report says -/

namespace JsonTree

def member? (key : String) : JsonTree → Option JsonTree
  | .object members => members.lookup key
  | _ => none

/-- What the entry for a file lists as findings. -/
def listed (entry : JsonTree) : List JsonTree :=
  match entry.member? "findings" with
  | some (.array items) => items
  | _ => []

def severity? (item : JsonTree) : Option Severity :=
  match item.member? "severity" with
  | some (.text name) => Severity.ofName? name
  | _ => none

def position? (item : JsonTree) : Option Position :=
  match item.member? "line", item.member? "column" with
  | some (.number line), some (.number column) => some ⟨line, column⟩
  | _, _ => none

/-- The positions of errors in the entry for a file. -/
def errorPositions (entry : JsonTree) : List Position :=
  (entry.listed.filter fun item => item.severity? = some .error).filterMap position?

/-- The item tells where a finding is, how serious it is and what it is. -/
structure Tells (item : JsonTree) (l : Located) : Prop where
  line : item.member? "line" = some (.number l.position.line)
  column : item.member? "column" = some (.number l.position.column)
  offset : item.member? "offset" = some (.number l.span.start)
  length : item.member? "length" = some (.number l.span.len)
  severity : item.member? "severity" = some (.text l.severity.name)
  finding : item.member? "finding" = some (.text l.finding.slug)
  message : item.member? "message" = some (.text l.finding.message)

/-- The entry is that of the file, and lists everything that is found in its text. -/
structure ReportsOn (grade : Finding → Option Severity) (entry : JsonTree) (source : Text × Text) : Prop where
  path : entry.member? "path" = some (.text source.1)
  findings : List.Forall₂ Tells entry.listed (findings grade source.2)
  hasErrors : ∃ b, entry.member? "has_errors" = some (.bool b) ∧
    (b = true ↔ ∃ item ∈ entry.listed, item.severity? = some .error)
  positions : entry.errorPositions =
    ((TunnelConf.findings grade source.2).filter (·.severity == .error)).map Located.position

theorem tells_jsonFinding (l : Located) : Tells (Command.jsonFinding l) l := by
  constructor <;> rfl

theorem severity?_jsonFinding (l : Located) : (Command.jsonFinding l).severity? = some l.severity := by
  show Severity.ofName? l.severity.name = some l.severity
  cases l.severity <;> decide

theorem position?_jsonFinding (l : Located) : (Command.jsonFinding l).position? = some l.position := rfl

theorem reportsOn_entryOf (grade : Finding → Option Severity) (source : Text × Text) (key : Option Text) :
    ReportsOn grade (Command.entryOf grade source key) source := by
  have hlisted : (Command.entryOf grade source key).listed =
      (TunnelConf.findings grade source.2).map Command.jsonFinding := rfl
  refine ⟨rfl, ?_, ⟨_, rfl, ?_⟩, ?_⟩
  · rw [hlisted, List.forall₂_map_left_iff, List.forall₂_same]
    exact fun l _ => tells_jsonFinding l
  · rw [hlisted]
    simp [severity?_jsonFinding]
  · have herror : (fun item => decide (item.severity? = some Severity.error)) ∘ Command.jsonFinding =
        fun l => l.severity == .error := by
      funext l
      simp only [Function.comp_apply, severity?_jsonFinding]
      cases l.severity <;> rfl
    have hposition : position? ∘ Command.jsonFinding = some ∘ Located.position := funext position?_jsonFinding
    rw [errorPositions, hlisted, List.filter_map, List.filterMap_map, herror, hposition, List.filterMap_eq_map]

end JsonTree

/-! ### Main statement -/

theorem Command.Told.reportsOn {grade : Finding → Option Severity} {r : RandomStream}
    {sources : List (Text × Text)} {keys : List (Option Text)} (h : Told r sources keys) :
    List.Forall₂ (JsonTree.ReportsOn grade) (List.zipWith (entryOf grade) sources keys) sources := by
  induction h with
  | nil => exact .nil
  | cons _ _ ih => exact .cons (JsonTree.reportsOn_entryOf grade _ _) ih

/-- Where a file cannot be read a check ends with the code of the first such error. Otherwise its code, the entries
it prints and those of its JSON report agree on what is found: they tell the same errors at the same positions. A
printed entry is one line, unless the file has a name of several. -/
theorem check_reports_findings (s : Settings) (input : List UInt8) (w : Workspace) (files : List Text) :
    let run := fun format => Command.run s input w (.check files format)
    (∃ path e, w.tree.FailsAt files path e ∧
      ∀ format, (run format).output = [] ∧ (run format).code = (EditError.io e).exitCode.number) ∨
    ∃ sources, w.tree.Reads files sources ∧
      (∀ source ∈ sources, (findings s.grade source.2).Pairwise fun l l' => l.span.start ≤ l'.span.start) ∧
      (∀ format, ((run format).code = 6 ∧ ∃ source ∈ sources, ∃ l ∈ findings s.grade source.2, l.severity = .error) ∨
        ((run format).code = 0 ∧
          ¬ ∃ source ∈ sources, ∃ l ∈ findings s.grade source.2, l.severity = .error)) ∧
      (run .plain).output = (Command.errorsIn s.grade sources).flatMap (fun e =>
        Command.line (Command.plainLine e.1 e.2.position e.2.finding)) ∧
      (∀ e ∈ Command.errorsIn s.grade sources,
        '\n' ∈ Command.plainLine e.1 e.2.position e.2.finding ↔ '\n' ∈ e.1) ∧
      ((run .plain).output.count '\n' = (Command.errorsIn s.grade sources).length ↔
        ∀ e ∈ Command.errorsIn s.grade sources, '\n' ∉ e.1) ∧
      ((run .plain).output = [] ↔ (run .plain).code = 0) ∧
      ∃ entries, (∀ entries', (run .json).output = Command.jsonOutput entries' ↔ entries = entries') ∧
        List.Forall₂ (JsonTree.ReportsOn s.grade) entries sources := by
  intro run
  cases hread : w.tree.readAll files with
  | error x =>
    obtain ⟨path, e⟩ := x
    obtain ⟨cause, rfl, hfails⟩ := FileTree.failsAt_of_readAll hread
    refine .inl ⟨path, cause, hfails, fun format => ?_⟩
    obtain ⟨houtput, hcode, -⟩ := Command.runCheck_of_error (s := s) hread format
    exact ⟨houtput, hcode⟩
  | ok sources =>
    obtain ⟨keys, hkeys, hcode, hplain, hjson⟩ := Command.runCheck_of_ok hread s
    refine .inr ⟨sources, FileTree.readAll_eq_ok_iff.1 hread, fun source _ => pairwise_findings _ _, fun format => ?_,
      hplain, fun _ _ => ?_, ?_, ?_, _, fun entries' => ?_, hkeys.reportsOn⟩
    · show ((Command.runCheck s files format w).code = 6 ∧ _) ∨ ((Command.runCheck s files format w).code = 0 ∧ _)
      rw [(hcode format).1]
      by_cases hnone : Command.errorsIn s.grade sources = []
      · exact .inr ⟨if_pos hnone, (Command.errorsIn_eq_nil_iff _ _).1 hnone⟩
      · exact .inl ⟨if_neg hnone, not_not.1 (mt (Command.errorsIn_eq_nil_iff _ _).2 hnone)⟩
    · rw [← List.count_pos_iff, Command.count_lf_plainLine, List.count_pos_iff]
    · show (Command.runCheck s files .plain w).output.count '\n' = _ ↔ _
      rw [hplain]
      exact Command.count_lf_eq_length_iff _
    · show (Command.runCheck s files .plain w).output = [] ↔ (Command.runCheck s files .plain w).code = 0
      rw [hplain, (hcode .plain).1]
      by_cases hnone : Command.errorsIn s.grade sources = []
      · simp [hnone]
      · obtain ⟨e, rest, hcons⟩ := List.exists_cons_of_ne_nil hnone
        simp [hcons, Command.describeFinding_eq, Command.line]
    · show (Command.runCheck s files .json w).output = _ ↔ _
      rw [hjson, Command.jsonOutput_inj]

/-- One error, in a file with a name of two lines. -/
theorem check_prints_two_lines :
    let path := "a\nb.conf".toList
    let content := "MTU = x\n".toList
    let tree : FileTree := ⟨[([path], .file ⟨utf8 content, 0o644⟩)], []⟩
    let settings : Settings := ⟨true, .warn, []⟩
    tree.Reads [path] [(path, content)] ∧ (Command.errorsIn settings.grade [(path, content)]).length = 1 ∧
      (Command.run settings [] ⟨tree, .cycle [7]⟩ (.check [path] .plain)).output.count '\n' = 2 := by
  intro path content tree settings
  have hreads : tree.Reads [path] [(path, content)] := ⟨rfl, by decide +kernel⟩
  have hlength : (Command.errorsIn settings.grade [(path, content)]).length = 1 := by decide +kernel
  have hnames : ((Command.errorsIn settings.grade [(path, content)]).map fun e => e.1.count '\n').sum = 1 := by
    decide +kernel
  refine ⟨hreads, hlength, ?_⟩
  obtain ⟨-, -, -, hplain, -⟩ :=
    Command.runCheck_of_ok (w := ⟨tree, .cycle [7]⟩) (FileTree.readAll_eq_ok_iff.2 hreads) settings
  have hcount := Command.count_lf_plainLines (Command.errorsIn settings.grade [(path, content)])
  rw [hlength, hnames] at hcount
  show (Command.runCheck settings [path] .plain ⟨tree, .cycle [7]⟩).output.count '\n' = 2
  rw [hplain]
  exact hcount

end TunnelConf
