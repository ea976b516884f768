import TunnelConf.Proofs.Merge.Findings
import TunnelConf.Proofs.Session.Refresh
import TunnelConf.Proofs.Storage.Atomic
import TunnelConf.Proofs.Text.Utf8

/-!
# Edits of files

An edit of a file works out a draft of the text that is read from it, and the draft is kept from the file,
refused by the tree or written (`Workspace.Finished`). So an edit that fails leaves the tree as it is
(`failed_calls_keep_tree`), `Workspace.addValue_fails_iff` and `Workspace.fillKeys_fails_iff` say when it
does, and a dry run tells what the run comes to but for a refusal (`dryRun_predicts`).
-/

namespace TunnelConf

open Text FileTree

/-! ### Texts of files -/

/-- What was written to a file that can be read is read from it. -/
theorem FileTree.Replaced.readText {t s : FileTree} {p content old : Text} {backup : Bool}
    (h : Replaced t p content backup s) (hold : t.readText p = .ok old) : s.readText p = .ok content := by
  obtain ⟨f, hf, hs⟩ := h.target
  obtain ⟨f', hf', hr, -⟩ := readText_eq_ok_iff.1 hold
  obtain rfl : f = f' := Option.some.inj (hf.symm.trans hf')
  exact readText_eq_ok_iff.2 ⟨_, hs, hr, ofUtf8?_utf8 content⟩

/-! ### Drafts -/

theorem KeyName.eq_text_of_ofText? {key : Text} {name : KeyName} (h : ofText? key = some name) :
    key = name.text := by
  unfold ofText? at h
  split at h
  · exact congrArg KeyName.text (Option.some.inj h)
  · cases h

namespace Draft

variable {t key value : Text} {r : RandomStream} {d : Draft}

theorem original_ofMerge (h : ofMerge t key value r = .ok d) : d.original = t := by
  unfold ofMerge at h
  split at h
  · cases h
  · next name _ =>
    obtain ⟨result, -, h⟩ := bind_eq_ok_iff.1 h
    exact congrArg original (Except.ok.inj h).symm

theorem original_ofFill (h : ofFill t r = .ok d) : d.original = t := by
  unfold ofFill at h
  dsimp only at h
  split at h
  · exact congrArg original (Except.ok.inj h).symm
  · cases h
  · cases h

end Draft

namespace Workspace

variable {w : Workspace} {path : Text} {options : EditOptions} {d : Draft}

theorem readText_eq_ok_iff {text : Text} : w.readText path = .ok text ↔ w.tree.readText path = .ok text := by
  rw [readText]
  cases w.tree.readText path <;> simp [Except.mapError]

/-- The draft that adding a value comes to. -/
def addDraft (w : Workspace) (input : List UInt8) (q : AddRequest) : Except EditError Draft := do
  let content ← w.readText q.path
  let value ← q.value.load w.tree input
  Draft.ofMerge content q.key value w.random

/-- The draft that filling a private key in comes to. -/
def fillDraft (w : Workspace) (path : Text) : Except EditError Draft := do
  let content ← w.readText path
  Draft.ofFill content w.random

theorem addValue_eq (w : Workspace) (input : List UInt8) (q : AddRequest) :
    w.addValue input q = w.edit q.path q.options (w.addDraft input q) := rfl

theorem fillKeys_eq (w : Workspace) (path : Text) (options : EditOptions) :
    w.fillKeys path options = w.edit path options (w.fillDraft path) := rfl

/-- A draft of the text that is read from a file. -/
def Drafts (w : Workspace) (path : Text) (d : Draft) : Prop := w.tree.readText path = .ok d.original

theorem drafts_addDraft {input : List UInt8} {q : AddRequest} (h : w.addDraft input q = .ok d) :
    w.Drafts q.path d := by
  obtain ⟨content, hread, h⟩ := bind_eq_ok_iff.1 h
  obtain ⟨value, -, h⟩ := bind_eq_ok_iff.1 h
  rw [Drafts, Draft.original_ofMerge h]
  exact readText_eq_ok_iff.1 hread

theorem drafts_fillDraft (h : w.fillDraft path = .ok d) : w.Drafts path d := by
  obtain ⟨content, hread, h⟩ := bind_eq_ok_iff.1 h
  rw [Drafts, Draft.original_ofFill h]
  exact readText_eq_ok_iff.1 hread

/-! ### What comes of a draft -/

/-- A draft is kept from the file, refused by the tree, or written. -/
inductive Finished (w : Workspace) (path : Text) (options : EditOptions) (d : Draft) : Report Outcome → Prop
  | kept {r : Report Outcome} : d.changed = false ∨ options.dryRun = true → r.result = .ok (d.outcome path) →
      r.workspace = ⟨w.tree, d.random⟩ → Finished w path options d r
  | refused {r : Report Outcome} {e : IoError} : d.changed = true → options.dryRun = false →
      ¬ Replaceable w.tree path options.backup → r.result = .error (.io e) →
      r.workspace = ⟨w.tree, d.random⟩ → Finished w path options d r
  | written {r : Report Outcome} {t : FileTree} : d.changed = true → options.dryRun = false →
      Replaceable w.tree path options.backup → r.result = .ok (d.outcome path) →
      r.workspace = ⟨t, d.random⟩ → Replaced w.tree path d.result options.backup t →
      Finished w path options d r

theorem finished_finish (w : Workspace) (path : Text) (options : EditOptions) (d : Draft) :
    w.Finished path options d (w.finish path options d) := by
  unfold finish
  dsimp only
  cases hc : d.changed with
  | false => exact .kept (.inl hc) rfl rfl
  | true =>
    cases hdry : options.dryRun with
    | true => exact .kept (.inr hdry) rfl rfl
    | false =>
      rcases writeAtomic_cases w.tree path d.result options.backup with
        ⟨⟨e, he⟩, htree, hnot⟩ | ⟨hok, hnew, hcan⟩
      · exact .refused hc hdry hnot (e := e) (by simp [he, Except.mapError, Except.map]) (by simp [htree])
      · exact .written hc hdry hcan (by simp [hok, Except.mapError, Except.map]) rfl hnew

/-- An edit writes the result of its outcome, or it leaves the tree as it is: then it has failed, there was
nothing to change, or it is a dry run. -/
theorem edit_tree (w : Workspace) (path : Text) (options : EditOptions) (draft : Except EditError Draft) :
    let r := w.edit path options draft
    (∃ o, r.result = .ok o ∧ o.changed = true ∧ options.dryRun = false ∧
        Replaced w.tree path o.result options.backup r.workspace.tree) ∨
      (r.workspace.tree = w.tree ∧ ∀ o, r.result = .ok o → o.changed = false ∨ options.dryRun = true) := by
  intro r
  cases draft with
  | error e => exact .inr ⟨rfl, fun o ho => by cases ho⟩
  | ok d =>
    have h : w.Finished path options d r := finished_finish w path options d
    cases h with
    | kept hidle hr hw =>
      refine .inr ⟨by rw [hw], fun o ho => ?_⟩
      obtain rfl := Except.ok.inj (hr.symm.trans ho)
      exact hidle
    | refused _ _ _ hr hw =>
      refine .inr ⟨by rw [hw], fun o ho => ?_⟩
      rw [hr] at ho
      cases ho
    | written hc hdry _ hr hw hnew => exact .inl ⟨_, hr, hc, hdry, by rw [hw]; exact hnew⟩

theorem edit_tree_of_error {draft : Except EditError Draft} {e : EditError}
    (h : (w.edit path options draft).result = .error e) :
    (w.edit path options draft).workspace.tree = w.tree := by
  rcases edit_tree w path options draft with ⟨o, ho, -, -, -⟩ | ⟨htree, -⟩
  · rw [h] at ho
    cases ho
  · exact htree

/-! ### Why edits fail -/

theorem edit_fails_iff (w : Workspace) (path : Text) (options : EditOptions) (draft : Except EditError Draft) :
    (∃ e, (w.edit path options draft).result = .error e) ↔
      (∃ e, draft = .error e) ∨ ∃ d, draft = .ok d ∧ d.changed = true ∧ options.dryRun = false ∧
        ¬ Replaceable w.tree path options.backup := by
  cases draft with
  | error e => exact ⟨fun _ => .inl ⟨e, rfl⟩, fun _ => ⟨e, rfl⟩⟩
  | ok d =>
    have h : w.Finished path options d (w.edit path options (.ok d)) := finished_finish w path options d
    cases h with
    | kept hidle hr _ => rcases hidle with hidle | hidle <;> simp [hr, hidle]
    | refused hc hdry hnot hr _ => simp [hr, hc, hdry, hnot]
    | written hc hdry hcan hr _ _ => simp [hr, hdry, hcan]

theorem addDraft_fails_iff (w : Workspace) (input : List UInt8) (q : AddRequest) :
    (∃ e, w.addDraft input q = .error e) ↔ (∃ e, w.readText q.path = .error e) ∨
      (∃ e, q.value.load w.tree input = .error e) ∨ KeyName.ofText? q.key = none := by
  have hdraft : w.addDraft input q = w.readText q.path >>= fun content =>
      q.value.load w.tree input >>= fun value => Draft.ofMerge content q.key value w.random := rfl
  cases hread : w.readText q.path with
  | error e => simp [hdraft, hread, bind, Except.bind]
  | ok content =>
    cases hload : q.value.load w.tree input with
    | error e => simp [hdraft, hread, hload, bind, Except.bind]
    | ok value =>
      cases hkey : KeyName.ofText? q.key with
      | none =>
        have hmerge : Draft.ofMerge content q.key value w.random = .error (.invalidKeyName q.key) := by
          rw [Draft.ofMerge, hkey]
          rfl
        simp [hdraft, hread, hload, hmerge, bind, Except.bind]
      | some key =>
        obtain ⟨d, hd, -⟩ := Draft.exists_ofMerge content key value w.random
        have hok : w.addDraft input q = .ok d := by
          rw [hdraft, hread, hload, KeyName.eq_text_of_ofText? hkey]
          exact hd
        simp [hok]

theorem fillDraft_fails_iff (w : Workspace) (path : Text) :
    (∃ e, w.fillDraft path = .error e) ↔ ∃ e, w.readText path = .error e := by
  have hdraft : w.fillDraft path = w.readText path >>= fun content => Draft.ofFill content w.random := rfl
  cases hread : w.readText path with
  | error e => simp [hdraft, hread, bind, Except.bind]
  | ok content =>
    obtain ⟨done, t', events, hrefresh, -, -⟩ := Session.exists_refresh content w.random
    have hok : ∃ d, w.fillDraft path = .ok d := by
      rw [hdraft, hread]
      show ∃ d, Draft.ofFill content w.random = .ok d
      rw [Draft.ofFill, Session.start, hrefresh]
      exact ⟨_, rfl⟩
    obtain ⟨d, hd⟩ := hok
    simp [hd]

/-- Adding a value fails for want of a text, a value or a key, and where the tree refuses the change. -/
theorem addValue_fails_iff (w : Workspace) (input : List UInt8) (q : AddRequest) :
    (∃ e, (w.addValue input q).result = .error e) ↔ (∃ e, w.readText q.path = .error e) ∨
      (∃ e, q.value.load w.tree input = .error e) ∨ KeyName.ofText? q.key = none ∨
      ∃ d, w.addDraft input q = .ok d ∧ d.changed = true ∧ q.options.dryRun = false ∧
        ¬ Replaceable w.tree q.path q.options.backup := by
  rw [addValue_eq, edit_fails_iff, addDraft_fails_iff, or_assoc, or_assoc]

/-- Filling keys in fails for want of a text only, and where the tree refuses the change. -/
theorem fillKeys_fails_iff (w : Workspace) (path : Text) (options : EditOptions) :
    (∃ e, (w.fillKeys path options).result = .error e) ↔ (∃ e, w.readText path = .error e) ∨
      ∃ d, w.fillDraft path = .ok d ∧ d.changed = true ∧ options.dryRun = false ∧
        ¬ Replaceable w.tree path options.backup := by
  rw [fillKeys_eq, edit_fails_iff, fillDraft_fails_iff]

end Workspace

/-- A call that fails leaves every file as it was, with its content and mode, and adds none. It fails if the
tree does not have what it takes, and an edit also for want of a text, a value or a key. -/
theorem failed_calls_keep_tree :
    (∀ (t : FileTree) (p content : Text) (backup : Bool),
      let r := t.writeAtomic p content backup
      ((∃ e, r.result = .error e) ↔ ¬ Replaceable t p backup) ∧ ∀ e, r.result = .error e → r.tree = t) ∧
    (∀ (w : Workspace) (input : List UInt8) (q : AddRequest),
      let r := w.addValue input q
      ((∃ e, r.result = .error e) ↔ (∃ e, w.readText q.path = .error e) ∨
        (∃ e, q.value.load w.tree input = .error e) ∨ KeyName.ofText? q.key = none ∨
        ∃ d, w.addDraft input q = .ok d ∧ d.changed = true ∧ q.options.dryRun = false ∧
          ¬ Replaceable w.tree q.path q.options.backup) ∧
        ∀ e, r.result = .error e → r.workspace.tree = w.tree) ∧
    (∀ (w : Workspace) (path : Text) (options : EditOptions),
      let r := w.fillKeys path options
      ((∃ e, r.result = .error e) ↔ (∃ e, w.readText path = .error e) ∨
        ∃ d, w.fillDraft path = .ok d ∧ d.changed = true ∧ options.dryRun = false ∧
          ¬ Replaceable w.tree path options.backup) ∧
        ∀ e, r.result = .error e → r.workspace.tree = w.tree) := by
  refine ⟨fun t p content backup => ?_, fun w input q => ?_, fun w path options => ?_⟩
  · rcases writeAtomic_cases t p content backup with ⟨he, htree, hnot⟩ | ⟨hok, -, hcan⟩
    · exact ⟨⟨fun _ => hnot, fun _ => he⟩, fun _ _ => htree⟩
    · simp [hok, hcan]
  · exact ⟨w.addValue_fails_iff input q, fun e he => Workspace.edit_tree_of_error he⟩
  · exact ⟨w.fillKeys_fails_iff path options, fun e he => Workspace.edit_tree_of_error he⟩

/-- That the backup cannot take the place of a directory shows only after the temporary file was filled. -/
theorem tree_kept_where_backup_is_directory :
    let f : Location × Node := (["f".toList], .file ⟨utf8 "MTU=1".toList, 0o600⟩)
    let t : FileTree := ⟨[f, (["f.bak".toList], .directory)], []⟩
    let w : Workspace := ⟨t, .cycle []⟩
    let written := t.writeAtomic "f".toList "MTU=2".toList true
    let added := w.addValue [] ⟨"f".toList, "MTU".toList, .inline "2".toList, {}⟩
    let filled := w.fillKeys "g".toList {}
    (written.steps.length = 5 ∧ written.result = .error .isDirectory ∧ written.tree = t) ∧
      (added.result = .error (.io .isDirectory) ∧ added.workspace.tree = t) ∧
      (filled.result = .error (.io .notFound) ∧ filled.workspace.tree = t) := by
  intro f t w written added filled
  obtain ⟨hwrite, hadd, hfill⟩ := failed_calls_keep_tree
  have hwritten : written.result = .error .isDirectory := by decide +kernel
  have hadded : added.result = .error (.io .isDirectory) := by decide +kernel
  have hfilled : filled.result = .error (.io .notFound) := by decide +kernel
  refine ⟨⟨by decide +kernel, hwritten, ?_⟩, ⟨hadded, ?_⟩, hfilled, ?_⟩
  · exact (hwrite t _ _ true).2 _ hwritten
  · exact (hadd w _ _).2 _ hadded
  · exact (hfill w _ _).2 _ hfilled

/-! ### Dry runs -/

/-- A dry run leaves the tree as it is and tells what the run comes to, unless the tree refuses the change. -/
structure Workspace.Predicts (w : Workspace) (path : Text) (backup : Bool) (dry run : Report Outcome) :
    Prop where
  tree : dry.workspace.tree = w.tree
  random : dry.workspace.random = run.workspace.random
  of_ok : ∀ o, run.result = .ok o → dry.result = .ok o ∧ run.workspace.tree.readText path = .ok o.result
  of_error : ∀ e, dry.result = .error e → run.result = .error e
  ok_iff : ∀ o, dry.result = .ok o → (run.result = .ok o ↔ (o.changed = true → Replaceable w.tree path backup))
  of_refused : ∀ o e, dry.result = .ok o → run.result = .error e → ∃ cause, e = .io cause

theorem Workspace.finish_dry (w : Workspace) (path : Text) (options : EditOptions) (d : Draft) :
    let r := w.finish path { options with dryRun := true } d
    r.result = .ok (d.outcome path) ∧ r.workspace = ⟨w.tree, d.random⟩ := by
  intro r
  have h : w.Finished path { options with dryRun := true } d r := finished_finish w path _ d
  cases h with
  | kept _ hr hw => exact ⟨hr, hw⟩
  | refused _ hdry => cases hdry
  | written _ hdry => cases hdry

section Predicts
variable {w : Workspace} {path : Text} {options : EditOptions} {d : Draft} {dry run : Report Outcome}

theorem Workspace.Predicts.of_done {backup : Bool} {o : Outcome} {t : FileTree} {random : RandomStream}
    (hdry : dry.result = .ok o) (hdryw : dry.workspace = ⟨w.tree, random⟩) (hrun : run.result = .ok o)
    (hrunw : run.workspace = ⟨t, random⟩) (hread : t.readText path = .ok o.result)
    (hcan : o.changed = true → Replaceable w.tree path backup) : w.Predicts path backup dry run where
  tree := by rw [hdryw]
  random := by rw [hdryw, hrunw]
  of_ok := by
    intro o' ho'
    obtain rfl := Except.ok.inj (hrun.symm.trans ho')
    exact ⟨hdry, hrunw ▸ hread⟩
  of_error := by
    intro e he
    cases hdry.symm.trans he
  ok_iff := by
    intro o' ho'
    obtain rfl := Except.ok.inj (hdry.symm.trans ho')
    exact ⟨fun _ => hcan, fun _ => hrun⟩
  of_refused := by
    intro _ e _ he
    cases hrun.symm.trans he

theorem Workspace.edit_predicts {draft : Except EditError Draft} (h : ∀ d, draft = .ok d → w.Drafts path d)
    (options : EditOptions) :
    w.Predicts path options.backup (w.edit path { options with dryRun := true } draft)
      (w.edit path { options with dryRun := false } draft) := by
  cases draft with
  | error e =>
    refine ⟨rfl, rfl, fun o ho => ?_, fun _ he => he, fun o ho => ?_, fun o _ ho _ => ?_⟩ <;> cases ho
  | ok d =>
    have hread : w.tree.readText path = .ok d.original := h d rfl
    obtain ⟨hdry, hdryw⟩ := finish_dry w path options d
    have hrun := finished_finish w path { options with dryRun := false } d
    cases hrun with
    | kept hidle hr hw =>
      have hno : d.changed = false := hidle.resolve_right Bool.false_ne_true
      have hsame : d.original = d.result := by simpa [Draft.changed] using hno
      refine .of_done hdry hdryw hr hw (hread.trans (congrArg Except.ok hsame)) fun hc => ?_
      cases hno.symm.trans hc
    | written _ _ hcan hr hw hnew => exact .of_done hdry hdryw hr hw (hnew.readText hread) fun _ => hcan
    | refused hc _ hnot hr hw =>
      refine ⟨by rw [edit, hdryw], ?_, fun o ho => ?_, fun e he => ?_, fun o ho => ?_, fun o e _ he => ?_⟩
      · exact congrArg random (hdryw.trans hw.symm)
      · cases hr.symm.trans ho
      · cases hdry.symm.trans he
      · obtain rfl := Except.ok.inj (hdry.symm.trans ho)
        refine ⟨fun hok => ?_, fun hcan => absurd (hcan hc) hnot⟩
        cases hr.symm.trans hok
      · exact ⟨_, Except.error.inj (he.symm.trans hr)⟩

end Predicts

/-- For adding values as for filling keys in a dry run predicts the run on the same tree and stream. -/
theorem dryRun_predicts (w : Workspace) :
    (∀ (input : List UInt8) (q : AddRequest),
      w.Predicts q.path q.options.backup
        (w.addValue input { q with options := { q.options with dryRun := true } })
        (w.addValue input { q with options := { q.options with dryRun := false } })) ∧
    ∀ (path : Text) (options : EditOptions),
      w.Predicts path options.backup (w.fillKeys path { options with dryRun := true })
        (w.fillKeys path { options with dryRun := false }) :=
  ⟨fun _ q => Workspace.edit_predicts (fun _ hd => Workspace.drafts_addDraft hd) q.options,
    fun _ options => Workspace.edit_predicts (fun _ hd => Workspace.drafts_fillDraft hd) options⟩

/-- A value added to a file, and one that cannot be since a directory has the name of the backup. -/
theorem dryRun_predicts_added_value :
    let f : Location × Node := (["f".toList], .file ⟨utf8 "MTU=1".toList, 0o600⟩)
    let w : Workspace := ⟨⟨[f], []⟩, .cycle []⟩
    let blocked : Workspace := ⟨⟨[f, (["f.bak".toList], .directory)], []⟩, .cycle []⟩
    let q : AddRequest := ⟨"f".toList, "MTU".toList, .inline "2".toList, {}⟩
    let dry : AddRequest := { q with options := { q.options with dryRun := true } }
    (∃ o, (w.addValue [] q).result = .ok o ∧ (w.addValue [] dry).result = .ok o ∧
      o.result = "MTU= 1,2".toList ∧ (w.addValue [] q).workspace.tree.readText "f".toList = .ok o.result) ∧
    ∃ o, (blocked.addValue [] dry).result = .ok o ∧ o.changed = true ∧
      (blocked.addValue [] q).result = .error (.io .isDirectory) := by
  intro f w blocked q dry
  have hadded := (dryRun_predicts w).1 [] q
  have hblocked := (dryRun_predicts blocked).1 [] q
  have hrun : (w.addValue [] q).result.toOption.map Outcome.result = some "MTU= 1,2".toList := by decide +kernel
  have hdry : (blocked.addValue [] dry).result.isOk = true := by decide +kernel
  have hrefused : (blocked.addValue [] q).result = .error (.io .isDirectory) := by decide +kernel
  constructor
  · cases ho : (w.addValue [] q).result with
    | error e => rw [ho] at hrun; cases hrun
    | ok o =>
      rw [ho] at hrun
      obtain ⟨hsame, hread⟩ := hadded.of_ok o ho
      exact ⟨o, rfl, hsame, Option.some.inj hrun, hread⟩
  · cases ho : (blocked.addValue [] dry).result with
    | error e => rw [ho] at hdry; cases hdry
    | ok o =>
      refine ⟨o, rfl, ?_, hrefused⟩
      by_contra hno
      have hok := (hblocked.ok_iff o ho).2 fun hc => absurd hc hno
      cases hrefused.symm.trans hok

end TunnelConf
