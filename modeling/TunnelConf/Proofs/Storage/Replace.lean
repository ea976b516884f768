import TunnelConf.Proofs.Storage.Step

/-!
# Replacing a file

Until the last step a replacement works beside the file: the tree is the one before, with the backup or
without it, and with the temporary file (`Holding`). `Filling` and `Swapping` say what the tree is when
which steps are left, and `Filling.step` and `Swapping.step` that each step leads from one to the next.
-/

namespace TunnelConf

open TunnelConf.Path Text

namespace FileTree

variable {t u v : FileTree} {p content : Text} {l m k : Location} {f g : File} {n : Node} {mode : Nat}
  {backup : Bool} {faults : Faults}

/-! ### A tree with a temporary file -/

/-- `v` is the tree `u` with a file at a location where `u` has nothing. -/
structure Holding (u v : FileTree) (m : Location) (f : File) : Prop where
  erase : v.erase m = u
  get? : v.get? m = some (.file f)

namespace Holding

theorem ne_directory (h : Holding u v m f) : v.get? m ≠ some .directory := by
  rw [h.get?]
  simp

theorem get?_of_ne (h : Holding u v m f) (hk : k ≠ m) : v.get? k = u.get? k := by
  rw [← h.erase, get?_erase (ne_nil_of_get?_ne h.ne_directory), if_neg hk]

theorem sameDirectories (h : Holding u v m f) : SameDirectories u v := by
  have := (SameDirectories.refl v).erase h.ne_directory
  rw [h.erase] at this
  exact ⟨this.here.symm, fun l => (this.get? l).symm⟩

theorem of_insert (h : u.get? m = none) (f : File) : Holding u (u.insert m (.file f)) m f := by
  refine ⟨erase_insert h _, ?_⟩
  rw [get?_insert (ne_nil_of_get?_ne (by rw [h]; simp)), if_pos rfl]

theorem update (h : Holding u v m f) (g : File) : Holding u (v.insert m (.file g)) m g := by
  refine ⟨by rw [erase_insert_self, h.erase], ?_⟩
  rw [get?_insert (ne_nil_of_get?_ne h.ne_directory), if_pos rfl]

theorem insert (h : Holding u v m f) (hk : k ≠ m) (hdir : u.get? k ≠ some .directory) (n : Node) :
    Holding (u.insert k n) (v.insert k n) m f := by
  refine ⟨by rw [erase_insert_of_ne hk, h.erase], ?_⟩
  rw [get?_insert (ne_nil_of_get?_ne hdir), if_neg (Ne.symm hk), h.get?]

end Holding

/-! ### The places of a replacement -/

theorem exists_freshSibling_eq_withSuffix (t : FileTree) (p : Text) :
    ∃ n, t.freshSibling p = withSuffix p (temporarySuffix n) := by
  obtain ⟨n, hn, -, -⟩ := exists_freshSibling t p
  exact ⟨n, hn⟩

theorem get?_freshSibling (h : t.locate (t.freshSibling p) = .ok m) : t.get? m = none := by
  obtain ⟨n, hn, hfree, -⟩ := exists_freshSibling t p
  exact pathExists_eq_false_iff.1 hfree m (hn ▸ h)

theorem backup_ne_temporary (hk : t.locate (backupPath p) = .ok k) (hm : t.locate (t.freshSibling p) = .ok m) :
    k ≠ m := by
  obtain ⟨n, hn⟩ := exists_freshSibling_eq_withSuffix t p
  exact sibling_ne_sibling isSuffix_bak (isSuffix_temporary n) (bak_ne_temporarySuffix n) hk (hn ▸ hm)

theorem target_ne_backup (hl : t.locate p = .ok l) (hf : t.get? l = some (.file f))
    (hk : t.locate (backupPath p) = .ok k) : l ≠ k :=
  file_ne_sibling isSuffix_bak hl hf hk

theorem target_ne_temporary (hn : t.get? l = some n) (hm : t.locate (t.freshSibling p) = .ok m) : l ≠ m := by
  rintro rfl
  rw [get?_freshSibling hm] at hn
  cases hn

/-- The tree before the last step without the temporary file: with a backup, if one is asked for. -/
inductive Saved (t : FileTree) (p : Text) : Bool → FileTree → Prop
  | without : Saved t p false t
  | copied {f : File} {k : Location} : t.file? p = some f → f.readable = true →
      t.locate (backupPath p) = .ok k → t.Accepts k → Saved t p true (t.insert k (.file f))

namespace Saved

theorem sameDirectories (h : Saved t p backup u) : SameDirectories t u := by
  cases h with
  | without => exact .refl t
  | copied _ _ _ ha => exact (SameDirectories.refl t).insert ha.ne_directory _

theorem get?_of_ne (h : Saved t p backup u) (hl : backup = true → t.locate (backupPath p) ≠ .ok l) :
    u.get? l = t.get? l := by
  cases h with
  | without => rfl
  | copied _ _ hk ha =>
    rw [get?_insert (ne_nil_of_get?_ne ha.ne_directory), if_neg]
    rintro rfl
    exact hl rfl hk

/-- A backup leaves what is at the path, since only a file is backed up. -/
theorem get?_target (h : Saved t p backup u) (hl : t.locate p = .ok l) : u.get? l = t.get? l := by
  cases h with
  | without => rfl
  | copied hf _ hk ha =>
    obtain ⟨l', hl', hget⟩ := file?_eq_some_iff.1 hf
    obtain rfl : l' = l := Except.ok.inj (hl'.symm.trans hl)
    rw [get?_insert (ne_nil_of_get?_ne ha.ne_directory), if_neg (target_ne_backup hl hget hk)]

end Saved

/-! ### The steps of a replacement -/

section Stages
variable (t : FileTree) (p content : Text)

/-- The tree when so many of the steps that fill the temporary file are left. -/
inductive Filling : List Step → FileTree → Prop
  | start : Filling (fillSteps (t.freshSibling p) content) t
  | created {v : FileTree} {m : Location} : t.locate (t.freshSibling p) = .ok m →
      Holding t v m ⟨[], newFileMode⟩ →
      Filling [.write (t.freshSibling p) content, .sync (t.freshSibling p)] v
  | written {v : FileTree} {m : Location} : t.locate (t.freshSibling p) = .ok m →
      Holding t v m ⟨utf8 content, newFileMode⟩ → Filling [.sync (t.freshSibling p)] v
  | synced {v : FileTree} {m : Location} : t.locate (t.freshSibling p) = .ok m →
      Holding t v m ⟨utf8 content, newFileMode⟩ → Filling [] v

/-- The tree when so many of the steps are left that put the temporary file in the place of the file. -/
inductive Swapping (mode : Nat) (backup : Bool) : List Step → FileTree → Prop
  | filled {v : FileTree} {m : Location} : t.locate (t.freshSibling p) = .ok m →
      Holding t v m ⟨utf8 content, newFileMode⟩ →
      Swapping mode backup (swapSteps p (t.freshSibling p) mode backup) v
  | guarded {v : FileTree} {m : Location} : backup = true → t.locate (t.freshSibling p) = .ok m →
      Holding t v m ⟨utf8 content, mode⟩ →
      Swapping mode backup [.copy p (backupPath p), .rename (t.freshSibling p) p] v
  | ready {u v : FileTree} {m : Location} : t.locate (t.freshSibling p) = .ok m → Saved t p backup u →
      Holding u v m ⟨utf8 content, mode⟩ → Swapping mode backup [.rename (t.freshSibling p) p] v
  | swapped {u : FileTree} {l : Location} {f : File} : Saved t p backup u → t.locate p = .ok l →
      t.get? l = some (.file f) →
      Swapping mode backup [] (u.insert l (.file { f with content := utf8 content }))

end Stages

theorem Filling.step {s : Step} {ss : List Step} (h : Filling t p content (s :: ss) u)
    (hr : s.run u = .ok v) : Filling t p content ss v := by
  cases h with
  | start =>
    obtain ⟨m, hm⟩ := Step.exists_of_run_create hr
    have hfree := get?_freshSibling hm
    rw [Step.run_create hm hfree] at hr
    obtain rfl := Except.ok.inj hr
    exact .created hm (.of_insert hfree _)
  | created hm hv =>
    have hm' := hv.sameDirectories.locate_iff.2 hm
    rw [Step.run, Step.modifyFile_eq hm' hv.get?] at hr
    obtain rfl := Except.ok.inj hr
    exact .written hm (hv.update _)
  | written hm hv =>
    have hm' := hv.sameDirectories.locate_iff.2 hm
    rw [Step.run, Step.modifyFile_eq hm' hv.get?] at hr
    obtain rfl := Except.ok.inj hr
    exact .synced hm (hv.update _)

theorem exists_of_mode (h : t.mode p = .ok mode) :
    ∃ l n, t.locate p = .ok l ∧ t.get? l = some n ∧ ∀ f, n = .file f → f.mode = mode := by
  rw [FileTree.mode, bind_eq_ok_iff] at h
  obtain ⟨n, hn, hmode⟩ := h
  obtain ⟨l, hl, hget⟩ := node_eq_ok_iff.1 hn
  refine ⟨l, n, hl, hget, ?_⟩
  rintro f rfl
  exact Except.ok.inj hmode

theorem Swapping.step {s : Step} {ss : List Step} (hmode : t.mode p = .ok mode)
    (h : Swapping t p content mode backup (s :: ss) v) (hr : s.run v = .ok u) :
    Swapping t p content mode backup ss u := by
  obtain ⟨l, n, hl, hn, hfile⟩ := exists_of_mode hmode
  cases h with
  | filled hm hv =>
    have hm' := hv.sameDirectories.locate_iff.2 hm
    rw [Step.run, Step.modifyFile_eq hm' hv.get?] at hr
    obtain rfl := Except.ok.inj hr
    cases backup with
    | false => exact .ready hm .without (hv.update _)
    | true => exact .guarded rfl hm (hv.update _)
  | guarded hb hm hv =>
    obtain ⟨f, k, hf, hread, hk, ha, rfl⟩ := Step.run_copy_eq_ok_iff.1 hr
    rw [hv.sameDirectories.locate_iff] at hk
    have hsame : v.file? p = t.file? p := by
      refine hv.sameDirectories.file?_eq fun l' hl' => hv.get?_of_ne ?_
      obtain rfl : l = l' := Except.ok.inj (hl.symm.trans hl')
      exact target_ne_temporary hn hm
    have hkm := backup_ne_temporary hk hm
    have ha' : t.Accepts k := by
      unfold Accepts at ha ⊢
      rwa [hv.get?_of_ne hkm] at ha
    subst hb
    exact .ready hm (.copied (hsame ▸ hf) hread hk ha') (hv.insert hkm ha'.ne_directory _)
  | ready hm hu hv =>
    obtain ⟨f, m', l', -, hm', hf, -, hl', hdir, rfl⟩ := Step.run_rename_eq_ok_iff.1 hr
    have hsame := hu.sameDirectories.trans hv.sameDirectories
    rw [hsame.locate_iff] at hm' hl'
    obtain rfl := Except.ok.inj (hm.symm.trans hm')
    obtain rfl := Except.ok.inj (hl.symm.trans hl')
    obtain rfl := Node.file.inj (Option.some.inj (hv.get?.symm.trans hf))
    rw [hv.get?_of_ne (target_ne_temporary hn hm), hu.get?_target hl, hn] at hdir
    rw [hv.erase]
    cases n with
    | directory => exact absurd rfl hdir
    | file g =>
      have hg : Swapping t p content g.mode backup [] _ := .swapped hu hl hn
      rwa [hfile g rfl] at hg

end FileTree

end TunnelConf
