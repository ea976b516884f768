import TunnelConf.Proofs.Storage.Replace

/-!
# Replacing is all or nothing

Behind each step of a replacement the file is the old one or the new one as a whole, whatever faults
strike (`replaceContent_untorn`). Without faults the replacement has taken place or the tree is the one
before (`writeAtomic_cases`), and `writeAtomic_ok_iff` says which of the two it is.
-/

namespace TunnelConf

open TunnelConf.Path Text

namespace FileTree

variable {t u v : FileTree} {p content : Text} {l m : Location} {f : File} {n : Node} {mode : Nat}
  {backup : Bool} {faults : Faults}

/-! ### The trees on the way -/

/-- The trees before the last step and behind the removal of the temporary file. -/
inductive Beside (t : FileTree) (p : Text) (backup : Bool) : FileTree → Prop
  | free {b : Bool} {u : FileTree} : (b = true → backup = true) → Saved t p b u → Beside t p backup u
  | holding {b : Bool} {u v : FileTree} {m : Location} {f : File} : (b = true → backup = true) →
      Saved t p b u → t.locate (t.freshSibling p) = .ok m → Holding u v m f → Beside t p backup v

theorem Filling.beside {rest : List Step} (h : Filling t p content rest v) : Beside t p backup v := by
  have hb : false = true → backup = true := fun h => by cases h
  cases h with
  | start => exact .free hb .without
  | created hm hv => exact .holding hb .without hm hv
  | written hm hv => exact .holding hb .without hm hv
  | synced hm hv => exact .holding hb .without hm hv

theorem Swapping.exists_holding {s : Step} {rest : List Step}
    (h : Swapping t p content mode backup (s :: rest) v) :
    ∃ b u m f, (b = true → backup = true) ∧ Saved t p b u ∧ t.locate (t.freshSibling p) = .ok m ∧
      Holding u v m f := by
  have hb : false = true → backup = true := fun h => by cases h
  cases h with
  | filled hm hv => exact ⟨_, _, _, _, hb, .without, hm, hv⟩
  | guarded _ hm hv => exact ⟨_, _, _, _, hb, .without, hm, hv⟩
  | ready hm hu hv => exact ⟨_, _, _, _, id, hu, hm, hv⟩

/-- Removing the temporary file fails and changes nothing, or the file is gone. -/
theorem Holding.removed (hv : Holding u v m f) (hm : v.locate p = .ok m) (faults : Faults) :
    Run.ofSteps faults [.remove p] v = ⟨.ok (), u, [(.remove p, u)]⟩ ∨
      ∃ e, faults (.remove p) = some e ∧ Run.ofSteps faults [.remove p] v = ⟨.error e, v, []⟩ := by
  have hr := Step.run_remove hm hv.get?
  rw [hv.erase] at hr
  cases hf : faults (.remove p) with
  | none =>
    refine .inl (Run.ofSteps_of_ok ?_)
    rw [Faults.run, hf]
    exact hr
  | some e =>
    refine .inr ⟨e, rfl, Run.ofSteps_of_error ?_⟩
    rw [Faults.run, hf]
    rfl

/-! ### The course of a replacement -/

theorem replaceContent_of_mode_error {e : IoError} (h : t.mode p = .error e) :
    t.replaceContent faults p content backup = ⟨.error e, t, []⟩ := by
  rw [replaceContent, h]

section Course
variable (faults : Faults) (t : FileTree) (p content : Text) (mode : Nat) (backup : Bool)

/-- The steps that fill the temporary file. -/
def filling : Run := .ofSteps faults (fillSteps (t.freshSibling p) content) t

/-- The steps that put the temporary file in the place of the file. -/
def swapping : Run :=
  .ofSteps faults (swapSteps p (t.freshSibling p) mode backup) (filling faults t p content).tree

/-- The step that removes the temporary file. -/
def removing : Run :=
  .ofSteps faults [.remove (t.freshSibling p)] (swapping faults t p content mode backup).tree

end Course

theorem replaceContent_eq (hmode : t.mode p = .ok mode) (faults : Faults) (content : Text) (backup : Bool) :
    t.replaceContent faults p content backup =
      match (filling faults t p content).result with
      | .error _ => filling faults t p content
      | .ok _ => (filling faults t p content).andThen fun _ =>
        match (swapping faults t p content mode backup).result with
        | .ok _ => swapping faults t p content mode backup
        | .error e => { (swapping faults t p content mode backup).andThen fun _ =>
            removing faults t p content mode backup with result := .error e } := by
  rw [replaceContent, hmode]
  rfl

/-- A replacement ends with the temporary file filled in part, with the file in its place, or with the
removal of the temporary file. -/
theorem replaceContent_cases (hmode : t.mode p = .ok mode) (faults : Faults) (content : Text) (backup : Bool) :
    let filled := filling faults t p content
    let swapped := swapping faults t p content mode backup
    let removed := removing faults t p content mode backup
    let r := t.replaceContent faults p content backup
    (∃ e, filled.result = .error e ∧ r = filled) ∨
      (filled.result = .ok () ∧ swapped.result = .ok () ∧ r = filled.andThen fun _ => swapped) ∨
      (filled.result = .ok () ∧ ∃ e, swapped.result = .error e ∧
        r = filled.andThen fun _ => { swapped.andThen fun _ => removed with result := .error e }) := by
  intro filled swapped removed r
  have hr : r = _ := replaceContent_eq hmode faults content backup
  rcases hfill : filled.result with e | ⟨⟩
  · refine .inl ⟨e, rfl, ?_⟩
    rw [hr, hfill]
  rcases hswap : (swapping faults t p content mode backup).result with e | ⟨⟩
  · refine .inr (.inr ⟨rfl, e, rfl, ?_⟩)
    rw [hr, hfill]
    simp only [hswap]
    rfl
  · refine .inr (.inl ⟨rfl, rfl, ?_⟩)
    rw [hr, hfill]
    simp only [hswap]
    rfl

/-! ### The trees in between -/

theorem filling_spec (faults : Faults) (t : FileTree) (p content : Text) :
    let r := filling faults t p content
    (∀ s ∈ r.states t, ∃ rest, Filling t p content rest s) ∧
      (r.result = .ok () ∧ Filling t p content [] r.tree ∨
        ∃ s rest e, Filling t p content (s :: rest) r.tree ∧ faults.run s r.tree = .error e ∧
          r.result = .error e) :=
  Run.ofSteps_spec (fun _ _ _ _ h hr => h.step hr) .start

theorem filled_of_ok (h : (filling faults t p content).result = .ok ()) :
    ∃ m, t.locate (t.freshSibling p) = .ok m ∧
      Holding t (filling faults t p content).tree m ⟨utf8 content, newFileMode⟩ := by
  obtain ⟨-, ⟨-, hend⟩ | ⟨s, rest, e, -, -, herr⟩⟩ := filling_spec faults t p content
  · cases hend with
    | synced hm hv => exact ⟨_, hm, hv⟩
  · rw [h] at herr
    cases herr

theorem swapping_spec (hmode : t.mode p = .ok mode) (hok : (filling faults t p content).result = .ok ())
    (backup : Bool) :
    let r := swapping faults t p content mode backup
    (∀ s ∈ r.states (filling faults t p content).tree, ∃ rest, Swapping t p content mode backup rest s) ∧
      (r.result = .ok () ∧ Swapping t p content mode backup [] r.tree ∨
        ∃ s rest e, Swapping t p content mode backup (s :: rest) r.tree ∧
          faults.run s r.tree = .error e ∧ r.result = .error e) := by
  obtain ⟨m, hm, hv⟩ := filled_of_ok hok
  exact Run.ofSteps_spec (fun _ _ _ _ h hr => h.step hmode hr) (.filled hm hv)

/-- Before the temporary file is removed it has not taken the place of the file, and behind that the tree is
the one before, with the backup or without it. -/
theorem cases_of_mem_removing (hmode : t.mode p = .ok mode)
    (hok : (filling faults t p content).result = .ok ()) {e : IoError}
    (herr : (swapping faults t p content mode backup).result = .error e)
    (hs : u ∈ (removing faults t p content mode backup).states
      (swapping faults t p content mode backup).tree) :
    (∃ s rest, Swapping t p content mode backup (s :: rest) u) ∨
      ∃ b, (b = true → backup = true) ∧ Saved t p b u := by
  obtain ⟨-, ⟨hswapped, -⟩ | ⟨s, rest, e', hend, -, -⟩⟩ := swapping_spec hmode hok backup
  · rw [herr] at hswapped
    cases hswapped
  obtain ⟨b, base, m, f, hb, hsaved, hm, hv⟩ := hend.exists_holding
  have hm' := (hsaved.sameDirectories.trans hv.sameDirectories).locate_iff.2 hm
  unfold removing at hs
  rcases hv.removed hm' faults with hr | ⟨e'', -, hr⟩
  · rw [hr, Run.states, List.map_cons, List.map_nil, List.mem_cons, List.mem_singleton] at hs
    rcases hs with rfl | rfl
    · exact .inl ⟨s, rest, hend⟩
    · exact .inr ⟨b, hb, hsaved⟩
  · rw [hr, Run.states, List.map_nil, List.mem_singleton] at hs
    exact .inl ⟨s, rest, hs ▸ hend⟩

/-- A tree on the way of a replacement is one in which the temporary file is filled or takes the place of the
file, or one behind its removal. -/
theorem cases_of_mem_states (hmode : t.mode p = .ok mode)
    (hs : u ∈ (t.replaceContent faults p content backup).states t) :
    (∃ rest, Filling t p content rest u) ∨ (∃ rest, Swapping t p content mode backup rest u) ∨
      ∃ b, (b = true → backup = true) ∧ Saved t p b u := by
  have hfill : u ∈ (filling faults t p content).states t → ∃ rest, Filling t p content rest u :=
    (filling_spec faults t p content).1 u
  have hswap : (filling faults t p content).result = .ok () →
      u ∈ (swapping faults t p content mode backup).states (filling faults t p content).tree →
      ∃ rest, Swapping t p content mode backup rest u :=
    fun hok => (swapping_spec hmode hok backup).1 u
  rcases replaceContent_cases hmode faults content backup with ⟨e, -, hr⟩ | ⟨hok, -, hr⟩ | ⟨hok, e, herr, hr⟩
  · exact .inl (hfill (hr ▸ hs))
  · rw [hr] at hs
    rcases Run.mem_states_andThen hs with hs | hs
    · exact .inl (hfill hs)
    · exact .inr (.inl (hswap hok hs))
  · rw [hr] at hs
    rcases Run.mem_states_andThen hs with hs | hs
    · exact .inl (hfill hs)
    · rcases Run.mem_states_andThen (t := (filling faults t p content).tree) hs with hs | hs
      · exact .inr (.inl (hswap hok hs))
      · rcases cases_of_mem_removing hmode hok herr hs with ⟨s, rest, h⟩ | h
        · exact .inr (.inl ⟨_, h⟩)
        · exact .inr (.inr h)

theorem Swapping.beside {s : Step} {rest : List Step} (h : Swapping t p content mode backup (s :: rest) u) :
    Beside t p backup u := by
  obtain ⟨b, base, m, f, hb, hsaved, hm, hv⟩ := h.exists_holding
  exact .holding hb hsaved hm hv

theorem beside_of_mem_removing (hmode : t.mode p = .ok mode)
    (hok : (filling faults t p content).result = .ok ()) {e : IoError}
    (herr : (swapping faults t p content mode backup).result = .error e)
    (hs : u ∈ (removing faults t p content mode backup).states
      (swapping faults t p content mode backup).tree) : Beside t p backup u := by
  rcases cases_of_mem_removing hmode hok herr hs with ⟨s, rest, h⟩ | ⟨b, hb, h⟩
  · exact h.beside
  · exact .free hb h

/-- A tree on the way of a replacement is one beside which the temporary file may stand, or the last. -/
theorem reached_of_mem_states (hmode : t.mode p = .ok mode)
    (hs : u ∈ (t.replaceContent faults p content backup).states t) :
    Beside t p backup u ∨ Swapping t p content mode backup [] u := by
  rcases cases_of_mem_states hmode hs with ⟨rest, h⟩ | ⟨rest, h⟩ | ⟨b, hb, h⟩
  · exact .inl h.beside
  · cases rest with
    | nil => exact .inr h
    | cons s rest => exact .inl h.beside
  · exact .inl (.free hb h)

theorem swapped_of_ok (hmode : t.mode p = .ok mode)
    (h : (t.replaceContent faults p content backup).result = .ok ()) :
    Swapping t p content mode backup [] (t.replaceContent faults p content backup).tree := by
  rcases replaceContent_cases hmode faults content backup with
    ⟨e, herr, hr⟩ | ⟨hok, hswapped, hr⟩ | ⟨-, e, -, hr⟩
  · rw [hr, herr] at h
    cases h
  · obtain ⟨-, ⟨-, hend⟩ | ⟨s, rest, e, -, -, herr⟩⟩ := swapping_spec hmode hok backup
    · rw [hr]
      exact hend
    · rw [hswapped] at herr
      cases herr
  · rw [hr] at h
    cases h

/-! ### Behind each step -/

/-- In the tree `s` the file of the tree `t` is the old one or the new one as a whole, in its old mode, and
all else is as it was but the backup, if one is asked for, and the temporary file. -/
structure Untorn (t : FileTree) (p content : Text) (backup : Bool) (s : FileTree) : Prop where
  directories : SameDirectories t s
  target : s.node p = t.node p ∨
    ∃ f, t.node p = .ok (.file f) ∧ s.node p = .ok (.file { f with content := utf8 content })
  elsewhere : ∀ l, t.locate p ≠ .ok l → (backup = true → t.locate (backupPath p) ≠ .ok l) →
    t.locate (t.freshSibling p) ≠ .ok l → s.get? l = t.get? l

theorem Untorn.refl (t : FileTree) (p content : Text) (backup : Bool) : Untorn t p content backup t :=
  ⟨.refl t, .inl rfl, fun _ _ _ _ => rfl⟩

theorem SameDirectories.node_eq (h : SameDirectories t u) (hl : t.locate p = .ok l) (hn : t.get? l = some n)
    (hget : u.get? l = t.get? l) : u.node p = t.node p := by
  rw [node_eq_ok_iff.2 ⟨l, hl, hn⟩, node_eq_ok_iff]
  exact ⟨l, h.locate_iff.2 hl, hget.trans hn⟩

theorem Beside.untorn (hmode : t.mode p = .ok mode) (h : Beside t p backup u) :
    Untorn t p content backup u := by
  obtain ⟨l, n, hl, hn, -⟩ := exists_of_mode hmode
  cases h with
  | free hb hu =>
    refine ⟨hu.sameDirectories, .inl (hu.sameDirectories.node_eq hl hn (hu.get?_target hl)), ?_⟩
    intro k _ hk _
    exact hu.get?_of_ne fun h => hk (hb h)
  | holding hb hu hm hv =>
    have hdirs := hu.sameDirectories.trans hv.sameDirectories
    refine ⟨hdirs, .inl (hdirs.node_eq hl hn ?_), ?_⟩
    · rw [hv.get?_of_ne (target_ne_temporary hn hm), hu.get?_target hl]
    · intro k _ hk hkm
      rw [hv.get?_of_ne (by rintro rfl; exact hkm hm)]
      exact hu.get?_of_ne fun h => hk (hb h)

/-- The tree `s` has the new content at a path of the tree `t` in the old mode, the old file at the path of
its backup if one is asked for, and all else as it was, the temporary siblings included. -/
structure Replaced (t : FileTree) (p content : Text) (backup : Bool) (s : FileTree) : Prop where
  directories : SameDirectories t s
  target : ∃ f, t.file? p = some f ∧ s.file? p = some { f with content := utf8 content }
  saved : s.file? (backupPath p) = if backup then t.file? p else t.file? (backupPath p)
  elsewhere : ∀ l, t.locate p ≠ .ok l → (backup = true → t.locate (backupPath p) ≠ .ok l) →
    s.get? l = t.get? l
  temporaries : ∀ n, s.file? (temporaryPath p n) = t.file? (temporaryPath p n)

theorem Swapping.replaced (h : Swapping t p content mode backup [] u) : Replaced t p content backup u := by
  cases h with
  | @swapped w l f hw hl hf =>
    have hdir : t.get? l ≠ some .directory := by rw [hf]; simp
    have hget := get?_insert (ne_nil_of_get?_ne hdir) w
    have hdirs := hw.sameDirectories.insert hdir { f with content := utf8 content }
    refine ⟨hdirs, ⟨f, file?_eq_some_iff.2 ⟨l, hl, hf⟩, ?_⟩, ?_, fun k hkl hk => ?_, fun n => ?_⟩
    · refine file?_eq_some_iff.2 ⟨l, hdirs.locate_iff.2 hl, ?_⟩
      rw [hget, if_pos rfl]
    · cases hw with
      | without =>
        refine hdirs.file?_eq fun k hk => ?_
        rw [hget, if_neg (Ne.symm (target_ne_backup hl hf hk))]
      | copied hf' _ hk ha =>
        rw [if_pos rfl, hf']
        refine file?_eq_some_iff.2 ⟨_, hdirs.locate_iff.2 hk, ?_⟩
        rw [hget, if_neg (Ne.symm (target_ne_backup hl hf hk)),
          get?_insert (ne_nil_of_get?_ne ha.ne_directory), if_pos rfl]
    · rw [hget, if_neg (by rintro rfl; exact hkl hl)]
      exact hw.get?_of_ne hk
    · refine hdirs.file?_eq fun k hk => ?_
      rw [hget, if_neg (Ne.symm (file_ne_sibling (isSuffix_temporary n) hl hf hk))]
      refine hw.get?_of_ne fun _ hbak => ?_
      exact sibling_ne_sibling isSuffix_bak (isSuffix_temporary n) (bak_ne_temporarySuffix n) hbak hk rfl

theorem Replaced.untorn (h : Replaced t p content backup u) : Untorn t p content backup u := by
  obtain ⟨f, hf, hu⟩ := h.target
  refine ⟨h.directories, .inr ⟨f, file?_eq_some_iff_node.1 hf, file?_eq_some_iff_node.1 hu⟩, ?_⟩
  intro l hl hk _
  exact h.elsewhere l hl hk

theorem getLast?_states_replaceContent (faults : Faults) (t : FileTree) (p content : Text) (backup : Bool) :
    ((t.replaceContent faults p content backup).states t).getLast? =
      some (t.replaceContent faults p content backup).tree := by
  cases hmode : t.mode p with
  | error e => rw [replaceContent_of_mode_error hmode]; rfl
  | ok mode =>
    have hfill := Run.getLast?_states_ofSteps faults (fillSteps (t.freshSibling p) content) t
    have hswap := Run.getLast?_states_ofSteps faults (swapSteps p (t.freshSibling p) mode backup)
      (filling faults t p content).tree
    have hremove := Run.getLast?_states_ofSteps faults [.remove (t.freshSibling p)]
      (swapping faults t p content mode backup).tree
    rcases replaceContent_cases hmode faults content backup with
      ⟨e, -, hr⟩ | ⟨-, -, hr⟩ | ⟨-, e, -, hr⟩ <;> rw [hr]
    · exact hfill
    · exact Run.getLast?_states_andThen hfill hswap
    · refine Run.getLast?_states_andThen hfill ?_
      exact Run.getLast?_states_andThen (r := swapping faults t p content mode backup) hswap hremove

/-- The steps are done in order, up to one that fails; then the temporary file is removed, or it has not
been filled. -/
theorem steps_replaceContent (hmode : t.mode p = .ok mode) (faults : Faults) (content : Text) (backup : Bool) :
    let temporary := t.freshSibling p
    let steps := (t.replaceContent faults p content backup).steps
    ∃ done, done <+: fillSteps temporary content ++ swapSteps p temporary mode backup ∧
      (steps = done ∨ steps = done ++ [.remove temporary]) := by
  intro temporary steps
  obtain ⟨hfill, hfilled⟩ := Run.steps_ofSteps faults (fillSteps temporary content) t
  obtain ⟨hswap, -⟩ := Run.steps_ofSteps faults (swapSteps p temporary mode backup)
    (filling faults t p content).tree
  obtain ⟨hremove, -⟩ := Run.steps_ofSteps faults [.remove temporary]
    (swapping faults t p content mode backup).tree
  have hboth : (filling faults t p content).result = .ok () →
      (filling faults t p content).steps ++ (swapping faults t p content mode backup).steps <+:
        fillSteps temporary content ++ swapSteps p temporary mode backup := by
    intro hok
    have hall : (filling faults t p content).steps = fillSteps temporary content := hfilled hok
    rw [hall]
    exact (List.prefix_append_right_inj _).2 hswap
  rcases replaceContent_cases hmode faults content backup with ⟨e, -, hr⟩ | ⟨hok, -, hr⟩ | ⟨hok, e, -, hr⟩
  · refine ⟨(filling faults t p content).steps, hfill.trans (List.prefix_append ..), .inl ?_⟩
    exact congrArg Run.steps hr
  · refine ⟨_, hboth hok, .inl ?_⟩
    rw [← Run.steps_andThen _ fun _ => swapping faults t p content mode backup]
    exact congrArg Run.steps hr
  · refine ⟨_, hboth hok, ?_⟩
    have hsteps : steps = (filling faults t p content).steps ++
        ((swapping faults t p content mode backup).steps ++
          (removing faults t p content mode backup).steps) := by
      rw [← Run.steps_andThen _ fun _ => removing faults t p content mode backup]
      exact (congrArg Run.steps hr).trans (Run.steps_andThen ..)
    rw [hsteps, List.append_assoc]
    rcases List.prefix_cons_iff.1 hremove with hnil | ⟨rest, hcons, hrest⟩
    · left
      rw [removing, hnil, List.append_nil]
    · right
      rw [removing, hcons, List.prefix_nil.1 hrest]

/-! ### Without faults -/

/-- What it takes to replace a file: a file, and room beside it for the temporary file and the backup. -/
structure Replaceable (t : FileTree) (p : Text) (backup : Bool) : Prop where
  file : ∃ f, t.file? p = some f ∧ (backup = true → f.readable = true)
  temporary : ∃ m, t.locate (t.freshSibling p) = .ok m
  saved : backup = true → ∃ k, t.locate (backupPath p) = .ok k ∧ t.Accepts k

theorem Filling.run_error {s : Step} {rest : List Step} {e : IoError}
    (h : Filling t p content (s :: rest) v) (hr : s.run v = .error e) :
    v = t ∧ ¬ Replaceable t p backup := by
  cases h with
  | start =>
    refine ⟨rfl, fun h => ?_⟩
    obtain ⟨m, hm⟩ := h.temporary
    rw [Step.run_create hm (get?_freshSibling hm)] at hr
    cases hr
  | created hm hv =>
    rw [Step.run, Step.modifyFile_eq (hv.sameDirectories.locate_iff.2 hm) hv.get?] at hr
    cases hr
  | written hm hv =>
    rw [Step.run, Step.modifyFile_eq (hv.sameDirectories.locate_iff.2 hm) hv.get?] at hr
    cases hr

/-- A temporary file can take the place of any file. -/
theorem Holding.exists_rename (hm : t.locate (t.freshSibling p) = .ok m) (hu : Saved t p backup u)
    (hv : Holding u v m f) (hl : t.locate p = .ok l) {g : File} (hg : t.get? l = some (.file g)) :
    ∃ w, (Step.rename (t.freshSibling p) p).run v = .ok w := by
  have hdirs := hu.sameDirectories.trans hv.sameDirectories
  obtain ⟨n, hn⟩ := exists_freshSibling_eq_withSuffix t p
  obtain ⟨ps, q, hp, hq, -⟩ := exists_name_of_file hl hg (isSuffix_temporary n) (hn ▸ hm)
  refine ⟨_, Step.run_rename_eq_ok_iff.2 ⟨f, m, l, q, hdirs.locate_iff.2 hm, hv.get?, ?_,
    hdirs.locate_iff.2 hl, ?_, rfl⟩⟩
  · rw [hp, List.getLast?_concat]
    exact hq
  · rw [ne_eq, hdirs.get?, hg]
    simp

theorem Swapping.run_error (hmode : t.mode p = .ok mode) {s : Step} {rest : List Step} {e : IoError}
    (h : Swapping t p content mode backup (s :: rest) v) (hr : s.run v = .error e) :
    (∃ m f, t.locate (t.freshSibling p) = .ok m ∧ Holding t v m f) ∧ ¬ Replaceable t p backup := by
  obtain ⟨l, n, hl, hn, -⟩ := exists_of_mode hmode
  cases h with
  | filled hm hv =>
    rw [Step.run, Step.modifyFile_eq (hv.sameDirectories.locate_iff.2 hm) hv.get?] at hr
    cases hr
  | guarded hb hm hv =>
    refine ⟨⟨_, _, hm, hv⟩, fun h => ?_⟩
    obtain ⟨f, hf, hread⟩ := h.file
    obtain ⟨k, hk, ha⟩ := h.saved hb
    have hcopy : (Step.copy p (backupPath p)).run v = .ok (v.insert k (.file f)) := by
      refine Step.run_copy_eq_ok_iff.2 ⟨f, k, ?_, hread hb, hv.sameDirectories.locate_iff.2 hk, ?_, rfl⟩
      · rw [← hf]
        refine hv.sameDirectories.file?_eq fun l' hl' => hv.get?_of_ne ?_
        obtain rfl : l = l' := Except.ok.inj (hl.symm.trans hl')
        exact target_ne_temporary hn hm
      · unfold Accepts at ha ⊢
        rwa [hv.get?_of_ne (backup_ne_temporary hk hm)]
    rw [hcopy] at hr
    cases hr
  | ready hm hu hv =>
    cases n with
    | file g =>
      obtain ⟨w, hw⟩ := hv.exists_rename hm hu hl hn
      rw [hw] at hr
      cases hr
    | directory =>
      have hno : ∀ f, t.file? p ≠ some f := by
        intro f hf
        obtain ⟨l', hl', hget⟩ := file?_eq_some_iff.1 hf
        obtain rfl := Except.ok.inj (hl.symm.trans hl')
        rw [hn] at hget
        cases hget
      cases hu with
      | without =>
        refine ⟨⟨_, _, hm, hv⟩, fun h => ?_⟩
        obtain ⟨f, hf, -⟩ := h.file
        exact hno f hf
      | copied hf => exact absurd hf (hno _)

theorem Swapping.replaceable (h : Swapping t p content mode backup [] u)
    (hm : t.locate (t.freshSibling p) = .ok m) : Replaceable t p backup := by
  cases h with
  | swapped hw hl hf =>
    cases hw with
    | without =>
      refine ⟨⟨_, file?_eq_some_iff.2 ⟨_, hl, hf⟩, fun h => ?_⟩, ⟨m, hm⟩, fun h => ?_⟩ <;> cases h
    | copied hf' hread hk ha => exact ⟨⟨_, hf', fun _ => hread⟩, ⟨m, hm⟩, fun _ => ⟨_, hk, ha⟩⟩

/-- A replacement takes place if the tree has what it takes, and it leaves the tree as it is if not. -/
theorem writeAtomic_cases (t : FileTree) (p content : Text) (backup : Bool) :
    let r := t.writeAtomic p content backup
    ((∃ e, r.result = .error e) ∧ r.tree = t ∧ ¬ Replaceable t p backup) ∨
      (r.result = .ok () ∧ Replaced t p content backup r.tree ∧ Replaceable t p backup) := by
  intro r
  let faults : Faults := fun _ => none
  have hr : r = t.replaceContent faults p content backup := rfl
  cases hmode : t.mode p with
  | error e =>
    rw [replaceContent_of_mode_error hmode] at hr
    refine .inl ⟨⟨e, by rw [hr]⟩, by rw [hr], fun h => ?_⟩
    obtain ⟨f, hf, -⟩ := h.file
    rw [FileTree.mode, file?_eq_some_iff_node.1 hf] at hmode
    cases hmode
  | ok mode =>
    rcases replaceContent_cases hmode faults content backup with
      ⟨e, herr, hr'⟩ | ⟨hok, hswapped, hr'⟩ | ⟨hok, e, herr, hr'⟩
    · obtain ⟨-, ⟨hok, -⟩ | ⟨s, rest, e', hend, hrun, -⟩⟩ := filling_spec faults t p content
      · rw [herr] at hok
        cases hok
      · obtain ⟨htree, hnot⟩ := hend.run_error hrun
        exact .inl ⟨⟨e, by rw [hr, hr', herr]⟩, by rw [hr, hr', htree], hnot⟩
    · obtain ⟨m, hm, -⟩ := filled_of_ok hok
      have hresult : r.result = .ok () := by rw [hr, hr']; exact hswapped
      have hend : Swapping t p content mode backup [] r.tree := swapped_of_ok hmode hresult
      exact .inr ⟨hresult, hend.replaced, hend.replaceable hm⟩
    · obtain ⟨-, ⟨hswapped, -⟩ | ⟨s, rest, e', hend, hrun, -⟩⟩ := swapping_spec hmode hok backup
      · rw [herr] at hswapped
        cases hswapped
      · obtain ⟨⟨m, f, hm, hv⟩, hnot⟩ := hend.run_error hmode hrun
        refine .inl ⟨⟨e, by rw [hr, hr']; rfl⟩, ?_, hnot⟩
        rw [hr, hr']
        show (removing faults t p content mode backup).tree = t
        rcases hv.removed (hv.sameDirectories.locate_iff.2 hm) faults with hrem | ⟨e'', hfault, -⟩
        · rw [removing, hrem]
        · cases hfault

theorem writeAtomic_ok_iff (t : FileTree) (p content : Text) (backup : Bool) :
    (t.writeAtomic p content backup).result = .ok () ↔ Replaceable t p backup := by
  rcases writeAtomic_cases t p content backup with ⟨⟨e, he⟩, -, hnot⟩ | ⟨hok, -, hcan⟩
  · simp [he, hnot]
  · simp [hok, hcan]

/-! ### Wherever it is stopped -/

theorem untorn_of_mem_states (hs : u ∈ (t.replaceContent faults p content backup).states t) :
    Untorn t p content backup u := by
  cases hmode : t.mode p with
  | error e =>
    rw [replaceContent_of_mode_error hmode] at hs
    rw [List.mem_singleton.1 hs]
    exact .refl t p content backup
  | ok mode =>
    rcases reached_of_mem_states hmode hs with h | h
    · exact h.untorn hmode
    · exact h.replaced.untorn

theorem replaced_of_ok (h : (t.replaceContent faults p content backup).result = .ok ()) :
    Replaced t p content backup (t.replaceContent faults p content backup).tree := by
  cases hmode : t.mode p with
  | error e =>
    rw [replaceContent_of_mode_error hmode] at h
    cases h
  | ok mode => exact (swapped_of_ok hmode h).replaced

/-- A replacement that is stopped behind any of its steps, or struck by a fault in any of them, leaves the
old file or the new one as a whole, and of all else only the backup and a temporary file that was not there
before can have changed. If it reports success, the file is the new one, and without faults it reports
success wherever the tree has what it takes. -/
theorem replaceContent_untorn (faults : Faults) (t : FileTree) (p content : Text) (backup : Bool) :
    let temporary := t.freshSibling p
    let r := t.replaceContent faults p content backup
    t.pathExists temporary = false ∧
    (∀ s ∈ r.states t, Untorn t p content backup s) ∧ (r.states t).getLast? = some r.tree ∧
    (∀ mode, t.mode p = .ok mode → ∃ done,
      done <+: fillSteps temporary content ++ swapSteps p temporary mode backup ∧
        (r.steps = done ∨ r.steps = done ++ [.remove temporary])) ∧
    (r.result = .ok () → Replaced t p content backup r.tree) ∧
    ((∀ s, faults s = none) → (r.result = .ok () ↔ Replaceable t p backup)) := by
  intro temporary r
  have hfree : t.pathExists temporary = false := by
    obtain ⟨n, hn, hfree, -⟩ := exists_freshSibling t p
    rwa [← hn] at hfree
  refine ⟨hfree, fun s hs => untorn_of_mem_states hs, getLast?_states_replaceContent faults t p content backup,
    fun mode hmode => steps_replaceContent hmode faults content backup, replaced_of_ok, fun hnone => ?_⟩
  obtain rfl : faults = fun _ => none := funext hnone
  exact writeAtomic_ok_iff t p content backup

/-- The file that stands at the first name of a temporary file is left alone, and the older backup is not
what a fault at the last step leaves. -/
theorem untorn_beside_older_siblings :
    let old : File := ⟨utf8 "MTU=1".toList, 0o600⟩
    let t : FileTree := ⟨[(["f".toList], .file old), (["f.tmp".toList], .file ⟨[1], 0o644⟩),
      (["f.bak".toList], .file ⟨[2], 0o644⟩)], []⟩
    let faults : Faults := fun s => if s matches .rename .. then some .denied else none
    let run := fun faults => t.replaceContent faults "f".toList "MTU=2".toList true
    ((run faults).steps.length = 6 ∧ (∀ s ∈ (run faults).states t, Untorn t "f".toList "MTU=2".toList true s) ∧
      (run faults).tree.file? "f".toList = some old ∧ (run faults).tree.file? "f.bak".toList = some old) ∧
    (run fun _ => none).result = .ok () ∧ Replaceable t "f".toList true ∧
      Replaced t "f".toList "MTU=2".toList true (run fun _ => none).tree := by
  intro old t faults run
  obtain ⟨-, huntorn, -, -, -, -⟩ := replaceContent_untorn faults t "f".toList "MTU=2".toList true
  obtain ⟨-, -, -, -, hreplaced, hcan⟩ := replaceContent_untorn (fun _ => none) t "f".toList "MTU=2".toList true
  have hok : (run fun _ => none).result = .ok () := by decide +kernel
  refine ⟨⟨by decide +kernel, huntorn, by decide +kernel, by decide +kernel⟩, hok, ?_, hreplaced hok⟩
  exact (hcan fun _ => rfl).1 hok

end FileTree

end TunnelConf
