import TunnelConf.Proofs.Storage.Tree

/-!
# Steps on files

What each step on files does where it succeeds, and what holds along a run of steps whatever faults
strike (`Run.ofSteps_spec`): a predicate on the steps that are left and the tree is carried from step to
step.
-/

namespace TunnelConf

open TunnelConf.Path FileTree

variable {t u v : FileTree} {p q : Text} {l m : Location} {f g : File} {faults : Faults}

namespace FileTree

/-- A file can be written to a location where none is, or one that may be written to. -/
def Accepts (t : FileTree) (l : Location) : Prop :=
  t.get? l = none ∨ ∃ f, t.get? l = some (.file f) ∧ f.writable = true

theorem Accepts.ne_directory (h : t.Accepts l) : t.get? l ≠ some .directory := by
  rcases h with h | ⟨f, h, -⟩ <;> simp [h]

end FileTree

namespace Step

theorem run_create (hm : u.locate q = .ok m) (h : u.get? m = none) :
    (create q).run u = .ok (u.insert m (.file ⟨[], newFileMode⟩)) := by
  simp [run, runCreate, hm, h, bind, Except.bind, pure, Except.pure]

/-- A file that is open is changed in its place. -/
theorem modifyFile_eq (hm : u.locate q = .ok m) (h : u.get? m = some (.file f)) (c : File → File) :
    modifyFile u q c = .ok (u.insert m (.file (c f))) := by
  simp [modifyFile, hm, h, bind, Except.bind, pure, Except.pure]

theorem run_remove (hm : u.locate q = .ok m) (h : u.get? m = some (.file f)) :
    (remove q).run u = .ok (u.erase m) := by
  simp [run, hm, h, bind, Except.bind, pure, Except.pure]

theorem exists_of_run_create (h : (create q).run u = .ok v) : ∃ m, u.locate q = .ok m := by
  rw [run, runCreate] at h
  cases hm : u.locate q with
  | error e => rw [hm] at h; cases h
  | ok m => exact ⟨m, rfl⟩

theorem run_copy_eq_ok_iff : (copy p q).run u = .ok v ↔
    ∃ f l, u.file? p = some f ∧ f.readable = true ∧ u.locate q = .ok l ∧ u.Accepts l ∧
      v = u.insert l (.file f) := by
  rw [run, runCopy, bind_eq_ok_iff]
  constructor
  · rintro ⟨n, hn, h⟩
    cases n with
    | directory => cases h
    | file f =>
      refine ⟨f, ?_⟩
      cases hr : f.readable with
      | false => simp [hr, throw, throwThe, MonadExceptOf.throw, bind, Except.bind] at h
      | true =>
        simp only [hr, Bool.not_true, Bool.false_eq_true, if_false, bind_eq_ok_iff] at h
        obtain ⟨l, hl, h⟩ := h
        refine ⟨l, file?_eq_some_iff_node.2 hn, rfl, hl, ?_⟩
        split at h
        · cases h
        · next old hold =>
          split at h
          · next hw => exact ⟨.inr ⟨old, hold, hw⟩, (Except.ok.inj h).symm⟩
          · cases h
        · next hnone => exact ⟨.inl hnone, (Except.ok.inj h).symm⟩
  · rintro ⟨f, l, hf, hr, hl, ha, rfl⟩
    refine ⟨.file f, file?_eq_some_iff_node.1 hf, ?_⟩
    simp only [hr, Bool.not_true, Bool.false_eq_true, if_false, bind_eq_ok_iff]
    refine ⟨l, hl, ?_⟩
    rcases ha with hnone | ⟨old, hold, hw⟩
    · rw [hnone]
      rfl
    · rw [hold]
      exact if_pos hw

theorem run_rename_eq_ok_iff : (rename p q).run u = .ok v ↔
    ∃ f m l n, u.locate p = .ok m ∧ u.get? m = some (.file f) ∧
      (parts q).getLast?.bind component? = some (.name n) ∧ u.locate q = .ok l ∧
      u.get? l ≠ some .directory ∧ v = (u.erase m).insert l (.file f) := by
  rw [run, runRename, bind_eq_ok_iff]
  constructor
  · rintro ⟨m, hm, h⟩
    split at h
    · next f hf =>
      split at h
      · cases h
      dsimp only at h
      split at h
      · next n hn =>
        obtain ⟨l, hl, h⟩ := bind_eq_ok_iff.1 h
        split at h
        · cases h
        · next hdir => exact ⟨f, m, l, n, hm, hf, hn, hl, hdir, (Except.ok.inj h).symm⟩
      · cases h
    · cases h
    · cases h
  · rintro ⟨f, m, l, n, hm, hf, hn, hl, hdir, rfl⟩
    refine ⟨m, hm, ?_⟩
    -- a path that ends in a slash has no name as its last part
    have hslash : q.getLast? ≠ some '/' := by
      intro hslash
      rw [getLast?_parts_of_slash hslash] at hn
      cases hn
    simp only [hf, hslash, decide_false, Bool.false_and, Bool.false_eq_true, if_false, hn, bind_eq_ok_iff]
    refine ⟨l, hl, ?_⟩
    split
    · next h => exact absurd h hdir
    · rfl

end Step

/-! ### Runs -/

/-- A step with the faults that strike it. -/
def Faults.run (faults : Faults) (s : Step) (t : FileTree) : Except IoError FileTree :=
  (faults s).elim (s.run t) .error

theorem Faults.run_eq_ok {s : Step} (h : faults.run s t = .ok u) : s.run t = .ok u := by
  unfold Faults.run at h
  cases hf : faults s with
  | none => rw [hf] at h; exact h
  | some e => rw [hf] at h; cases h

theorem Faults.run_of_fault {s : Step} {e : IoError} (h : faults s = some e) : faults.run s t = .error e := by
  rw [Faults.run, h]
  rfl

namespace Run

/-- The trees of a run that began with `t`: before the first step, and behind each. -/
def states (r : Run) (t : FileTree) : List FileTree := t :: r.history.map Prod.snd

theorem ofSteps_of_error {s : Step} {ss : List Step} {e : IoError} (h : faults.run s t = .error e) :
    ofSteps faults (s :: ss) t = ⟨.error e, t, []⟩ := by
  unfold Faults.run at h
  rw [ofSteps, h]

theorem ofSteps_of_ok {s : Step} {ss : List Step} (h : faults.run s t = .ok u) :
    ofSteps faults (s :: ss) t =
      { ofSteps faults ss u with history := (s, u) :: (ofSteps faults ss u).history } := by
  unfold Faults.run at h
  rw [ofSteps, h]

/-- What holds before a run and is carried over each step holds behind every step. The run does all of
the steps, or it stops at one that fails. -/
theorem ofSteps_spec {P : List Step → FileTree → Prop}
    (hstep : ∀ s ss t u, P (s :: ss) t → s.run t = .ok u → P ss u) {ss : List Step} (h : P ss t) :
    let r := ofSteps faults ss t
    (∀ u ∈ r.states t, ∃ rest, P rest u) ∧
      (r.result = .ok () ∧ P [] r.tree ∨
        ∃ s rest e, P (s :: rest) r.tree ∧ faults.run s r.tree = .error e ∧ r.result = .error e) := by
  induction ss generalizing t with
  | nil => exact ⟨fun u hu => ⟨[], by simpa [ofSteps, states, List.mem_singleton.1 hu] using h⟩, .inl ⟨rfl, h⟩⟩
  | cons s ss ih =>
    cases hr : faults.run s t with
    | error e =>
      rw [ofSteps_of_error hr]
      refine ⟨fun u hu => ⟨s :: ss, ?_⟩, .inr ⟨s, ss, e, h, hr, rfl⟩⟩
      rwa [List.mem_singleton.1 hu]
    | ok u =>
      obtain ⟨hstates, hend⟩ := ih (hstep s ss t u h (Faults.run_eq_ok hr))
      rw [ofSteps_of_ok hr]
      refine ⟨fun v hv => ?_, hend⟩
      rcases List.mem_cons.1 hv with rfl | hv
      · exact ⟨s :: ss, h⟩
      · exact hstates v hv

/-- The steps that were done are the first of the given ones, and all of them if none failed. -/
theorem steps_ofSteps (faults : Faults) (ss : List Step) (t : FileTree) :
    (ofSteps faults ss t).steps <+: ss ∧
      ((ofSteps faults ss t).result = .ok () → (ofSteps faults ss t).steps = ss) := by
  induction ss generalizing t with
  | nil => exact ⟨List.prefix_rfl, fun _ => rfl⟩
  | cons s ss ih =>
    cases hr : faults.run s t with
    | error e =>
      rw [ofSteps_of_error hr]
      exact ⟨List.nil_prefix, fun h => by cases h⟩
    | ok u =>
      obtain ⟨hdone, hall⟩ := ih u
      rw [ofSteps_of_ok hr]
      exact ⟨(List.prefix_cons_inj s).2 hdone, fun h => congrArg (s :: ·) (hall h)⟩

theorem getLast?_states_ofSteps (faults : Faults) (ss : List Step) (t : FileTree) :
    ((ofSteps faults ss t).states t).getLast? = some (ofSteps faults ss t).tree := by
  induction ss generalizing t with
  | nil => rfl
  | cons s ss ih =>
    cases hr : faults.run s t with
    | error e => rw [ofSteps_of_error hr]; rfl
    | ok u =>
      rw [ofSteps_of_ok hr]
      show (t :: (ofSteps faults ss u).states u).getLast? = some (ofSteps faults ss u).tree
      rw [states, List.getLast?_cons_cons]
      exact ih u

section Then
variable {r : Run} {next : FileTree → Run}

theorem states_andThen : (r.andThen next).states t = r.states t ++ (next r.tree).history.map Prod.snd := by
  rw [states, states, List.cons_append, ← List.map_append]
  rfl

theorem mem_states_andThen {s : FileTree} (h : s ∈ (r.andThen next).states t) :
    s ∈ r.states t ∨ s ∈ (next r.tree).states r.tree := by
  rw [states_andThen, List.mem_append] at h
  exact h.imp_right (List.mem_cons_of_mem _)

theorem steps_andThen (r : Run) (next : FileTree → Run) :
    (r.andThen next).steps = r.steps ++ (next r.tree).steps := List.map_append

theorem getLast?_states_andThen (h : (r.states t).getLast? = some r.tree)
    (h' : ((next r.tree).states r.tree).getLast? = some (next r.tree).tree) :
    ((r.andThen next).states t).getLast? = some (r.andThen next).tree := by
  rw [states_andThen]
  rw [states] at h'
  cases hh : (next r.tree).history.map Prod.snd with
  | nil =>
    rw [hh] at h'
    rw [List.append_nil, h]
    exact h'
  | cons s ss =>
    rw [hh, List.getLast?_cons_cons] at h'
    rw [List.getLast?_append_of_ne_nil _ (List.cons_ne_nil _ _), h']
    rfl

end Then

end Run

end TunnelConf
