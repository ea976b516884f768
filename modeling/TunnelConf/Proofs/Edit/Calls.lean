import Mathlib.Data.List.Induction
import TunnelConf.Proofs.Edit.Files

/-!
# Calls on one file

Calls add values to a file, fill its keys in, check it and read its structure. A call writes the file as a
whole or leaves the tree as it is (`Workspace.written_perform`). By induction over the calls the file holds
what was written last, its backup the version before the last change that asked for one, and nothing else
has changed (`performAll_saves_versions`).
-/

namespace TunnelConf

open Text FileTree

/-- A call on one file. -/
inductive FileCall
  | add (key : Text) (value : ValueSource) (input : List UInt8) (options : EditOptions)
  | fill (options : EditOptions)
  | check
  | outline (wanted : Option Text)

inductive FileAnswer
  | edited (options : EditOptions) (result : Except EditError Outcome)
  | checked (result : Except EditError CheckReport)
  | outlined (result : Except EditError Document)

/-- A text that was written to a file, the tree before, and whether a backup was asked for. -/
structure FileChange where
  before : FileTree
  text : Text
  backup : Bool

/-- An edit that answers with a change and is not a dry run has written its result. -/
def FileAnswer.change? (before : FileTree) : FileAnswer → Option FileChange
  | .edited options (.ok o) =>
    if o.changed && !options.dryRun then some ⟨before, o.result, options.backup⟩ else none
  | _ => none

namespace Workspace

def perform (w : Workspace) (path : Text) : FileCall → FileAnswer × Workspace
  | .add key value input options =>
    let r := w.addValue input ⟨path, key, value, options⟩
    (.edited options r.result, r.workspace)
  | .fill options =>
    let r := w.fillKeys path options
    (.edited options r.result, r.workspace)
  | .check =>
    let r := w.checkFile path
    (.checked r.result, r.workspace)
  | .outline wanted => (.outlined (w.loadStructure path wanted), w)

/-- What a call writes. -/
def change? (w : Workspace) (path : Text) (c : FileCall) : Option FileChange :=
  (w.perform path c).1.change? w.tree

/-- The workspace after calls, and the changes that they made, in order. -/
def performAll (w : Workspace) (path : Text) (calls : List FileCall) : Workspace × List FileChange :=
  calls.foldl (fun s c => ((s.1.perform path c).2, s.2 ++ (s.1.change? path c).toList)) (w, [])

end Workspace

variable {t s u : FileTree} {w : Workspace} {path : Text} {c : FileChange} {changes : List FileChange}

/-! ### One call -/

/-- The tree `s` is the tree `t` with a change, if there is one, written as a whole. -/
def Written (t : FileTree) (path : Text) (s : FileTree) : Option FileChange → Prop
  | none => s = t
  | some c => c.before = t ∧ Replaced t path c.text c.backup s

theorem Workspace.written_edit (w : Workspace) (path : Text) (options : EditOptions)
    (draft : Except EditError Draft) :
    let r := w.edit path options draft
    Written w.tree path r.workspace.tree ((FileAnswer.edited options r.result).change? w.tree) := by
  intro r
  rcases edit_tree w path options draft with ⟨o, ho, hc, hdry, hnew⟩ | ⟨htree, hidle⟩
  · have hr : r.result = .ok o := ho
    rw [hr, FileAnswer.change?, hc, hdry]
    exact ⟨rfl, hnew⟩
  · cases hr : r.result with
    | error e => exact htree
    | ok o =>
      have hno : (o.changed && !options.dryRun) = false := by
        rcases hidle o hr with h | h <;> simp [h]
      rw [FileAnswer.change?, hno]
      exact htree

theorem Workspace.tree_checkFile (w : Workspace) (path : Text) :
    (w.checkFile path).workspace.tree = w.tree := by
  unfold checkFile
  split <;> rfl

theorem Workspace.written_perform (w : Workspace) (path : Text) (c : FileCall) :
    Written w.tree path (w.perform path c).2.tree (w.change? path c) := by
  cases c with
  | add key value input options => exact written_edit w path options _
  | fill options => exact written_edit w path options _
  | check => exact tree_checkFile w path
  | outline wanted => rfl

/-! ### Calls in a row -/

/-- What changes of a file, made one after the other, have left of the tree `t`. -/
structure WrittenAll (t : FileTree) (path : Text) (changes : List FileChange) (s : FileTree) : Prop where
  directories : SameDirectories t s
  target : s.file? path =
    (t.file? path).map fun f => changes.getLast?.elim f fun c => { f with content := utf8 c.text }
  saved : s.file? (backupPath path) =
    ((changes.filter FileChange.backup).getLast?).elim (t.file? (backupPath path)) fun c => c.before.file? path
  elsewhere : ∀ l, t.locate path ≠ .ok l →
    ((∃ c ∈ changes, c.backup = true) → t.locate (backupPath path) ≠ .ok l) → s.get? l = t.get? l
  temporaries : ∀ n, s.file? (temporaryPath path n) = t.file? (temporaryPath path n)

namespace WrittenAll

theorem refl (t : FileTree) (path : Text) : WrittenAll t path [] t where
  directories := .refl t
  target := by simp
  saved := rfl
  elsewhere _ _ _ := rfl
  temporaries _ := rfl

theorem concat (h : WrittenAll t path changes s) (hs : Written s path u (some c)) :
    WrittenAll t path (changes ++ [c]) u := by
  obtain ⟨rfl, hnew⟩ := hs
  refine ⟨h.directories.trans hnew.directories, ?_, ?_, fun l hl hk => ?_, fun n => ?_⟩
  · obtain ⟨f, hf, hu⟩ := hnew.target
    rw [h.target, Option.map_eq_some_iff] at hf
    obtain ⟨g, hg, rfl⟩ := hf
    rw [hu, hg, List.getLast?_concat]
    cases changes.getLast? <;> rfl
  · rw [hnew.saved, List.filter_append]
    cases hb : c.backup with
    | false => simp [hb, h.saved]
    | true => simp [hb]
  · have hl' : c.before.locate path ≠ .ok l := fun hs => hl (h.directories.locate_iff.1 hs)
    rw [hnew.elsewhere l hl' fun hb hs => ?_, h.elsewhere l hl fun hb => ?_]
    · obtain ⟨c', hc', hb⟩ := hb
      exact hk ⟨c', List.mem_append_left _ hc', hb⟩
    · exact hk ⟨c, List.mem_append_right _ (List.mem_singleton_self c), hb⟩ (h.directories.locate_iff.1 hs)
  · rw [hnew.temporaries, h.temporaries]

end WrittenAll

theorem Workspace.performAll_concat (w : Workspace) (path : Text) (calls : List FileCall) (c : FileCall) :
    let now := w.performAll path calls
    w.performAll path (calls ++ [c]) =
      ((now.1.perform path c).2, now.2 ++ (now.1.change? path c).toList) :=
  List.foldl_concat ..

theorem Workspace.writtenAll_performAll (w : Workspace) (path : Text) (calls : List FileCall) :
    WrittenAll w.tree path (w.performAll path calls).2 (w.performAll path calls).1.tree := by
  -- from the right: what the last call wrote and saved stands over what the calls before have left
  induction calls using List.reverseRecOn with
  | nil => exact .refl w.tree path
  | append_singleton calls c ih =>
    have hstep := written_perform (w.performAll path calls).1 path c
    rw [performAll_concat]
    cases hc : (w.performAll path calls).1.change? path c with
    | none =>
      rw [hc] at hstep
      rw [hstep, Option.toList_none, List.append_nil]
      exact ih
    | some change =>
      rw [hc] at hstep
      exact ih.concat hstep

/-- After any calls on a file one more call writes the file as a whole, if it answers that it has changed
the file, and leaves the tree as it is if not. So the backup holds the version before the last change that
asked for a backup. -/
theorem performAll_saves_versions (w : Workspace) (path : Text) (calls : List FileCall) :
    let now := (w.performAll path calls).1
    (∀ c, Written now.tree path (now.perform path c).2.tree (now.change? path c)) ∧
      WrittenAll w.tree path (w.performAll path calls).2 now.tree :=
  ⟨fun c => Workspace.written_perform _ path c, Workspace.writtenAll_performAll w path calls⟩

/-- Of three values one is added in a dry run and one without a backup. -/
theorem saved_version_of_added_values :
    let old : File := ⟨utf8 "MTU=1".toList, 0o600⟩
    let w : Workspace := ⟨⟨[(["f".toList], .file old), (["f.tmp".toList], .file ⟨[1], 0o644⟩)], []⟩, .cycle []⟩
    let add (value : String) (options : EditOptions) : FileCall :=
      .add "MTU".toList (.inline value.toList) [] options
    let calls := [add "2" {}, .check, add "3" ⟨true, true⟩, add "4" ⟨false, false⟩]
    let now := (w.performAll "f".toList calls).1
    WrittenAll w.tree "f".toList (w.performAll "f".toList calls).2 now.tree ∧
      (w.performAll "f".toList calls).2.map FileChange.text = ["MTU= 1,2".toList, "MTU= 1,2,4".toList] ∧
      now.tree.file? "f".toList = some { old with content := utf8 "MTU= 1,2,4".toList } ∧
      now.tree.file? "f.bak".toList = some old := by
  intro old w add calls now
  obtain ⟨-, hall⟩ := performAll_saves_versions w "f".toList calls
  exact ⟨hall, by decide +kernel, by decide +kernel, by decide +kernel⟩

end TunnelConf
