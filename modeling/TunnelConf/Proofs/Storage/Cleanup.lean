import TunnelConf.Proofs.Storage.Atomic

/-!
# What a failed replacement leaves

`Run.FailsAt` names the step at which a sequence of steps fails. A replacement that fails reports the error of
that step and leaves the file as it was (`replaceContent_of_failsAt`). One that fails while the temporary file takes
the place of the file removes the temporary file (`removed_of_swapping`); one that fails while it is filled does not
(`left_of_filling`). Main statement: `replaceContent_cleansUp_iff`.
-/

namespace TunnelConf

open FileTree Text

namespace Run

variable {faults : Faults} {t : FileTree} {s : Step} {ss ss' : List Step} {e : IoError}

/-- Of some steps the ones in front of `s` are done, and `s` reports the error `e`. -/
inductive FailsAt (faults : Faults) : FileTree → List Step → Step → IoError → Prop
  | here {t : FileTree} {s : Step} {ss : List Step} {e : IoError} : faults.run s t = .error e →
      FailsAt faults t (s :: ss) s e
  | later {t u : FileTree} {s s' : Step} {ss : List Step} {e : IoError} : faults.run s t = .ok u →
      FailsAt faults u ss s' e → FailsAt faults t (s :: ss) s' e

theorem FailsAt.result (h : FailsAt faults t ss s e) : (ofSteps faults ss t).result = .error e := by
  induction h with
  | here hr => rw [ofSteps_of_error hr]
  | later hr _ ih => rw [ofSteps_of_ok hr]; exact ih

theorem failsAt_append : FailsAt faults t (ss ++ ss') s e ↔
    FailsAt faults t ss s e ∨
      (ofSteps faults ss t).result = .ok () ∧ FailsAt faults (ofSteps faults ss t).tree ss' s e := by
  induction ss generalizing t with
  | nil =>
    constructor
    · exact fun h => .inr ⟨rfl, h⟩
    · rintro (h | ⟨-, h⟩)
      · cases h
      · exact h
  | cons s₀ ss ih =>
    cases hr : faults.run s₀ t with
    | error e₀ =>
      rw [ofSteps_of_error hr]
      constructor
      · intro h
        cases h with
        | here he => exact .inl (.here he)
        | later hok _ => cases hr.symm.trans hok
      · rintro (h | ⟨h, -⟩)
        · cases h with
          | here he => exact .here he
          | later hok _ => cases hr.symm.trans hok
        · cases h
    | ok u =>
      rw [ofSteps_of_ok hr]
      constructor
      · intro h
        cases h with
        | here he => cases hr.symm.trans he
        | later hok h =>
          obtain rfl := Except.ok.inj (hr.symm.trans hok)
          exact (ih.1 h).imp_left (.later hr)
      · rintro (h | h)
        · cases h with
          | here he => cases hr.symm.trans he
          | later hok h =>
            obtain rfl := Except.ok.inj (hr.symm.trans hok)
            exact .later hr (ih.2 (.inl h))
        · exact .later hr (ih.2 (.inr h))

end Run

namespace FileTree

open Run

variable {t u v : FileTree} {p content : Text} {l m : Location} {f : File} {mode : Nat} {backup : Bool}
  {faults : Faults} {s : Step} {e : IoError}

/-- The steps of a replacement up to the last, in order. -/
def replaceSteps (t : FileTree) (p content : Text) (mode : Nat) (backup : Bool) : List Step :=
  fillSteps (t.freshSibling p) content ++ swapSteps p (t.freshSibling p) mode backup

/-- While the file is not replaced, it is the one before. -/
theorem Beside.node_eq (hmode : t.mode p = .ok mode) (h : Beside t p backup u) : u.node p = t.node p := by
  obtain ⟨l, n, hl, hn, -⟩ := exists_of_mode hmode
  cases h with
  | free _ hu => exact hu.sameDirectories.node_eq hl hn (hu.get?_target hl)
  | holding _ hu hm hv =>
    refine (hu.sameDirectories.trans hv.sameDirectories).node_eq hl hn ?_
    rw [hv.get?_of_ne (target_ne_temporary hn hm), hu.get?_target hl]

theorem beside_of_error (hmode : t.mode p = .ok mode)
    (h : (t.replaceContent faults p content backup).result = .error e) :
    Beside t p backup (t.replaceContent faults p content backup).tree := by
  rcases replaceContent_cases hmode faults content backup with ⟨e', hfill, hr⟩ | ⟨-, hswap, hr⟩ | ⟨hok, e', hswap, hr⟩
  · rw [hr]
    obtain ⟨hfilled, -⟩ | ⟨s, rest, e'', hend, -, -⟩ := (filling_spec faults t p content).2
    · rw [hfill] at hfilled
      cases hfilled
    · exact hend.beside
  · rw [hr] at h
    cases hswap.symm.trans h
  · rw [hr]
    refine beside_of_mem_removing hmode hok hswap ?_
    exact List.mem_of_getLast? (Run.getLast?_states_ofSteps faults _ _)

theorem replaceContent_of_filling_error (hmode : t.mode p = .ok mode)
    (h : (filling faults t p content).result = .error e) (backup : Bool) :
    t.replaceContent faults p content backup = filling faults t p content := by
  rw [replaceContent_eq hmode, h]

theorem Holding.pathExists (hm : t.locate p = .ok m) (hu : SameDirectories t u) (hv : Holding u v m f) :
    v.pathExists p = true := by
  have hnode := node_eq_ok_iff.2 ⟨m, (hu.trans hv.sameDirectories).locate_iff.2 hm, hv.get?⟩
  rw [FileTree.pathExists, hnode]
  rfl

theorem Holding.not_pathExists (hm : t.locate p = .ok m) (hu : SameDirectories t u) (hv : Holding u v m f) :
    u.pathExists p = false := by
  refine pathExists_eq_false_iff.2 fun k hk => ?_
  obtain rfl := Except.ok.inj (hm.symm.trans (hu.locate_iff.1 hk))
  rw [← hv.erase, get?_erase (ne_nil_of_get?_ne hv.ne_directory), if_pos rfl]

/-! ### While the temporary file is filled -/

/-- Of the steps that fill the temporary file all but the first fail by a fault only. -/
theorem faults_of_filling {ss : List Step} (h : Filling t p content (s :: ss) v) (hr : faults.run s v = .error e)
    (hs : s ≠ .create (t.freshSibling p)) : faults s = some e := by
  unfold Faults.run at hr
  cases hf : faults s with
  | some e' =>
    rw [hf] at hr
    exact congrArg some (Except.error.inj hr)
  | none =>
    rw [hf] at hr
    have hrun : s.run v = .error e := hr
    cases h with
    | start => exact absurd rfl hs
    | created hm hv =>
      rw [Step.run, Step.modifyFile_eq (hv.sameDirectories.locate_iff.2 hm) hv.get?] at hrun
      cases hrun
    | written hm hv =>
      rw [Step.run, Step.modifyFile_eq (hv.sameDirectories.locate_iff.2 hm) hv.get?] at hrun
      cases hrun

/-- The temporary file stands when a step behind its creation fails. -/
theorem left_of_filling (h : FailsAt faults t (fillSteps (t.freshSibling p) content) s e)
    (hs : s ≠ .create (t.freshSibling p)) :
    (∃ u, faults.run (.create (t.freshSibling p)) t = .ok u) ∧ faults s = some e ∧
      (s = .write (t.freshSibling p) content ∨ s = .sync (t.freshSibling p)) ∧
      (filling faults t p content).tree.pathExists (t.freshSibling p) = true := by
  cases h with
  | here _ => exact absurd rfl hs
  | @later _ u _ _ _ _ hcreate h =>
    have hcreated : Filling t p content _ u := Filling.start.step (Faults.run_eq_ok hcreate)
    rw [filling, fillSteps, ofSteps_of_ok hcreate]
    refine ⟨⟨u, hcreate⟩, ?_⟩
    cases h with
    | here hr =>
      refine ⟨faults_of_filling hcreated hr hs, .inl rfl, ?_⟩
      rw [ofSteps_of_error hr]
      cases hcreated with
      | created hm hv => exact hv.pathExists hm (.refl t)
    | later hwrite h =>
      have hwritten := hcreated.step (Faults.run_eq_ok hwrite)
      cases h with
      | here hr =>
        refine ⟨faults_of_filling hwritten hr hs, .inr rfl, ?_⟩
        rw [ofSteps_of_ok hwrite, ofSteps_of_error hr]
        cases hwritten with
        | written hm hv => exact hv.pathExists hm (.refl t)
      | later _ h => cases h

/-- A fault in writing or syncing is what the filling fails at. -/
theorem exists_failsAt_of_fault (hcreate : faults.run (.create (t.freshSibling p)) t = .ok u)
    (h : ¬ (faults (.write (t.freshSibling p) content) = none ∧ faults (.sync (t.freshSibling p)) = none)) :
    ∃ s e, s ≠ .create (t.freshSibling p) ∧ FailsAt faults t (fillSteps (t.freshSibling p) content) s e := by
  cases hw : faults (.write (t.freshSibling p) content) with
  | some e => exact ⟨_, e, by simp, .later hcreate (.here (Faults.run_of_fault hw))⟩
  | none =>
    cases hs : faults (.sync (t.freshSibling p)) with
    | none => exact absurd ⟨hw, hs⟩ h
    | some e =>
      cases hwrite : faults.run (.write (t.freshSibling p) content) u with
      | error e' => exact ⟨_, e', by simp, .later hcreate (.here hwrite)⟩
      | ok v => exact ⟨_, e, by simp, .later hcreate (.later hwrite (.here (Faults.run_of_fault hs)))⟩

/-! ### While the temporary file takes the place of the file -/

theorem removed_of_swapping (hmode : t.mode p = .ok mode) (hok : (filling faults t p content).result = .ok ())
    (herr : (swapping faults t p content mode backup).result = .error e)
    (hremove : faults (.remove (t.freshSibling p)) = none) :
    (t.replaceContent faults p content backup).tree.pathExists (t.freshSibling p) = false := by
  have htree : (t.replaceContent faults p content backup).tree =
      (removing faults t p content mode backup).tree := by
    rw [replaceContent_eq hmode, hok]
    simp only [herr]
    rfl
  obtain ⟨-, ⟨hswapped, -⟩ | ⟨s, rest, e', hend, -, -⟩⟩ := swapping_spec hmode hok backup
  · rw [herr] at hswapped
    cases hswapped
  obtain ⟨b, base, m, f, -, hsaved, hm, hv⟩ := hend.exists_holding
  have hm' := (hsaved.sameDirectories.trans hv.sameDirectories).locate_iff.2 hm
  rcases hv.removed hm' faults with hr | ⟨e'', hf, -⟩
  · rw [htree, removing, hr]
    exact hv.not_pathExists hm hsaved.sameDirectories
  · rw [hremove] at hf
    cases hf

/-! ### The replacement as a whole -/

/-- The replacement reports the error of the step at which it fails. -/
theorem replaceContent_of_failsAt (hmode : t.mode p = .ok mode)
    (h : FailsAt faults t (t.replaceSteps p content mode backup) s e) :
    (t.replaceContent faults p content backup).result = .error e := by
  rw [replaceContent_eq hmode]
  rcases failsAt_append.1 h with h | ⟨hok, h⟩
  · have hfill : (filling faults t p content).result = .error e := h.result
    rw [hfill]
    exact hfill
  · have hfill : (filling faults t p content).result = .ok () := hok
    have hswap : (swapping faults t p content mode backup).result = .error e := h.result
    rw [hfill]
    simp only [hswap]
    rfl

/-- A replacement that fails behind the creation of the temporary file reports the error, leaves the file in
its content and mode, and leaves no temporary file, if that can be removed. -/
def CleansUp (faults : Faults) (t : FileTree) (p content : Text) (backup : Bool) : Prop :=
  ∀ mode s e, t.mode p = .ok mode → FailsAt faults t (t.replaceSteps p content mode backup) s e →
    s ≠ .create (t.freshSibling p) → faults (.remove (t.freshSibling p)) = none →
      let r := t.replaceContent faults p content backup
      r.result = .error e ∧ r.tree.node p = t.node p ∧ r.tree.pathExists (t.freshSibling p) = false

/-- The file stays and the error is the one of the step that fails, at whatever step that is. The temporary
file is removed for the steps that put it in the place of the file, and stays for those that fill it. -/
theorem replaceContent_cleansUp_iff (faults : Faults) (t : FileTree) (p content : Text) (backup : Bool) :
    let temporary := t.freshSibling p
    let r := t.replaceContent faults p content backup
    (∀ mode s e, t.mode p = .ok mode → FailsAt faults t (t.replaceSteps p content mode backup) s e →
      r.result = .error e ∧ r.tree.node p = t.node p) ∧
    (CleansUp faults t p content backup ↔
      ((∃ mode, t.mode p = .ok mode) → (∃ u, faults.run (.create temporary) t = .ok u) →
        faults (.remove temporary) = none →
          faults (.write temporary content) = none ∧ faults (.sync temporary) = none)) := by
  intro temporary r
  have hkeeps : ∀ mode s e, t.mode p = .ok mode →
      FailsAt faults t (t.replaceSteps p content mode backup) s e →
        r.result = .error e ∧ r.tree.node p = t.node p := by
    intro mode s e hmode h
    have herr := replaceContent_of_failsAt hmode h
    exact ⟨herr, (beside_of_error hmode herr).node_eq hmode⟩
  refine ⟨hkeeps, fun hclean => ?_, fun hfill mode s e hmode h hs hremove => ?_⟩
  · rintro ⟨mode, hmode⟩ ⟨u, hcreate⟩ hremove
    by_contra hfault
    obtain ⟨s, e, hs, h⟩ := exists_failsAt_of_fault hcreate hfault
    obtain ⟨-, -, -, hleft⟩ := left_of_filling h hs
    obtain ⟨-, -, hgone⟩ := hclean mode s e hmode (failsAt_append.2 (.inl h)) hs hremove
    rw [replaceContent_of_filling_error hmode h.result, hleft] at hgone
    cases hgone
  · obtain ⟨herr, hnode⟩ := hkeeps mode s e hmode h
    refine ⟨herr, hnode, ?_⟩
    rcases failsAt_append.1 h with h | ⟨hok, h⟩
    · obtain ⟨hcreate, hfault, hstep, -⟩ := left_of_filling h hs
      obtain ⟨hw, hsync⟩ := hfill ⟨mode, hmode⟩ hcreate hremove
      rcases hstep with rfl | rfl
      · cases hw.symm.trans hfault
      · cases hsync.symm.trans hfault
    · exact removed_of_swapping hmode hok h.result hremove

/-- The content cannot be written, and the temporary file stays beside the old one. -/
theorem not_cleansUp_failed_write :
    let old : File := ⟨utf8 "MTU=1".toList, 0o600⟩
    let t : FileTree := ⟨[(["f".toList], .file old)], []⟩
    let faults : Faults := fun s => if s matches .write .. then some .denied else none
    let r := t.replaceContent faults "f".toList "MTU=2".toList true
    r.result = .error .denied ∧ r.tree.files = [(["f".toList], old), (["f.tmp".toList], ⟨[], newFileMode⟩)] ∧
      ¬ CleansUp faults t "f".toList "MTU=2".toList true := by
  intro old t faults r
  refine ⟨by decide +kernel, by decide +kernel, fun hclean => ?_⟩
  have hmode : t.mode "f".toList = .ok 0o600 := by decide +kernel
  have hcreate : faults.run (.create (t.freshSibling "f".toList)) t =
      .ok ⟨[(["f".toList], .file old), (["f.tmp".toList], .file ⟨[], newFileMode⟩)], []⟩ := by decide +kernel
  have hfails : FailsAt faults t (t.replaceSteps "f".toList "MTU=2".toList 0o600 true) _ .denied :=
    .later hcreate (.here rfl)
  obtain ⟨-, -, hgone⟩ := hclean _ _ _ hmode hfails (by simp) rfl
  revert hgone
  decide +kernel

end FileTree

end TunnelConf
