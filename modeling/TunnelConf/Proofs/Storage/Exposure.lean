import TunnelConf.Proofs.Storage.Cleanup

/-!
# What a replacement shows on its way

The temporary file is filled before it gets the mode of the file that it replaces. `Exposes` says that a tree
has bytes in a new file that grants more than that mode: on the way of a replacement this is the temporary file
with all of the content, and no other (`exposed_of_mem_states`). Main statement: `replaceContent_unexposed_iff`.
-/

namespace TunnelConf

open FileTree Text

/-- The file grants nothing that `mode` does not grant. -/
def File.Within (f : File) (mode : Nat) : Prop :=
  ∀ bit, f.mode.testBit bit = true → mode.testBit bit = true

theorem File.within_of_mode_eq {f : File} {mode : Nat} (h : f.mode = mode) : f.Within mode :=
  fun _ hbit => h ▸ hbit

namespace FileTree

open Run

variable {t u v : FileTree} {p content : Text} {l m : Location} {f : File} {mode : Nat} {backup : Bool}
  {faults : Faults} {rest : List Step}

/-- At the location `l` the tree `s` has a file that the tree `t` does not have there. It holds bytes, and it
grants more than `mode`. -/
def Exposes (t : FileTree) (mode : Nat) (s : FileTree) (l : Location) : Prop :=
  ∃ f, s.get? l = some (.file f) ∧ t.get? l ≠ some (.file f) ∧ f.content ≠ [] ∧ ¬ f.Within mode

/-- Behind each step of a replacement, what it has created or rewritten grants no more than the file that it
replaces. -/
def Unexposed (faults : Faults) (t : FileTree) (p content : Text) (backup : Bool) : Prop :=
  ∀ mode, t.mode p = .ok mode → ∀ s ∈ (t.replaceContent faults p content backup).states t,
    ∀ l, ¬ Exposes t mode s l

theorem not_exposes_of_get? (h : u.get? l = t.get? l) : ¬ Exposes t mode u l := by
  rintro ⟨f, hf, hne, -, -⟩
  exact hne (h ▸ hf)

theorem mode_of_get? (hmode : t.mode p = .ok mode) (hl : t.locate p = .ok l) (hf : t.get? l = some (.file f)) :
    f.mode = mode := by
  obtain ⟨l', n, hl', hn, hfile⟩ := exists_of_mode hmode
  obtain rfl : l = l' := Except.ok.inj (hl.symm.trans hl')
  exact hfile f (Option.some.inj (hn.symm.trans hf))

/-! ### The trees on the way -/

/-- A backup grants what the file grants. -/
theorem Saved.not_exposes (hmode : t.mode p = .ok mode) {b : Bool} (h : Saved t p b u) (l : Location) :
    ¬ Exposes t mode u l := by
  cases h with
  | without => exact not_exposes_of_get? rfl
  | copied hf _ _ ha =>
    obtain ⟨l', hl', hget⟩ := file?_eq_some_iff.1 hf
    rintro ⟨g, hg, hne, -, hwide⟩
    rw [get?_insert (ne_nil_of_get?_ne ha.ne_directory)] at hg
    split at hg
    · obtain rfl := Node.file.inj (Option.some.inj hg)
      exact hwide (File.within_of_mode_eq (mode_of_get? hmode hl' hget))
    · exact hne hg

/-- Beside a tree that exposes nothing only the temporary file can be exposed. -/
theorem Holding.of_exposes (hv : Holding u v m f) (hu : ∀ l, ¬ Exposes t mode u l) (h : Exposes t mode v l) :
    l = m ∧ f.content ≠ [] ∧ ¬ f.Within mode := by
  obtain ⟨g, hg, hrest⟩ := h
  by_cases hl : l = m
  · subst hl
    rw [hv.get?] at hg
    obtain rfl := Node.file.inj (Option.some.inj hg)
    exact ⟨rfl, hrest.2⟩
  · rw [hv.get?_of_ne hl] at hg
    exact absurd ⟨g, hg, hrest⟩ (hu l)

/-- At `l` stands the temporary file with all of the content, in the mode of a new file. -/
structure Filled (t : FileTree) (p content : Text) (s : FileTree) (l : Location) : Prop where
  locate : t.locate (t.freshSibling p) = .ok l
  get? : s.get? l = some (.file ⟨utf8 content, newFileMode⟩)

theorem Filling.filled_of_exposes (hmode : t.mode p = .ok mode) (h : Filling t p content rest u)
    (he : Exposes t mode u l) : Filled t p content u l := by
  have hbefore := Saved.not_exposes hmode .without
  cases h with
  | start => exact absurd he (hbefore l)
  | created hm hv =>
    obtain ⟨-, hc, -⟩ := hv.of_exposes hbefore he
    exact absurd rfl hc
  | written hm hv =>
    obtain ⟨rfl, -, -⟩ := hv.of_exposes hbefore he
    exact ⟨hm, hv.get?⟩
  | synced hm hv =>
    obtain ⟨rfl, -, -⟩ := hv.of_exposes hbefore he
    exact ⟨hm, hv.get?⟩

/-- Behind the last step nothing is exposed. -/
theorem Swapping.not_exposes (hmode : t.mode p = .ok mode) (h : Swapping t p content mode backup [] u)
    (l : Location) : ¬ Exposes t mode u l := by
  cases h with
  | @swapped w k g hw hl hg =>
    have hdir : t.get? k ≠ some .directory := by rw [hg]; simp
    have hold : g.mode = mode := mode_of_get? hmode hl hg
    rintro ⟨f, hf, hrest⟩
    rw [get?_insert (ne_nil_of_get?_ne hdir)] at hf
    split at hf
    · obtain rfl := Node.file.inj (Option.some.inj hf)
      exact hrest.2.2 (File.within_of_mode_eq hold)
    · exact hw.not_exposes hmode l ⟨f, hf, hrest⟩

/-- Behind the first of these steps the temporary file has the mode of the file. -/
theorem Swapping.filled_of_exposes (hmode : t.mode p = .ok mode) (h : Swapping t p content mode backup rest u)
    (he : Exposes t mode u l) : Filled t p content u l := by
  cases rest with
  | nil => exact absurd he (h.not_exposes hmode l)
  | cons s rest =>
    cases h with
    | filled hm hv =>
      obtain ⟨rfl, -, -⟩ := hv.of_exposes (Saved.not_exposes hmode .without) he
      exact ⟨hm, hv.get?⟩
    | guarded _ hm hv =>
      obtain ⟨-, -, hwide⟩ := hv.of_exposes (Saved.not_exposes hmode .without) he
      exact absurd (File.within_of_mode_eq rfl) hwide
    | ready hm hu hv =>
      obtain ⟨-, -, hwide⟩ := hv.of_exposes (hu.not_exposes hmode) he
      exact absurd (File.within_of_mode_eq rfl) hwide

theorem filled_of_mem_states (hmode : t.mode p = .ok mode)
    (hs : u ∈ (t.replaceContent faults p content backup).states t) (he : Exposes t mode u l) :
    Filled t p content u l := by
  rcases cases_of_mem_states hmode hs with ⟨rest, h⟩ | ⟨rest, h⟩ | ⟨b, -, h⟩
  · exact h.filled_of_exposes hmode he
  · exact h.filled_of_exposes hmode he
  · exact absurd he (h.not_exposes hmode l)

/-! ### When the temporary file is filled -/

theorem mem_states_of_mem_filling (hmode : t.mode p = .ok mode) (hs : u ∈ (filling faults t p content).states t)
    (backup : Bool) : u ∈ (t.replaceContent faults p content backup).states t := by
  rcases replaceContent_cases hmode faults content backup with ⟨e, -, hr⟩ | ⟨-, -, hr⟩ | ⟨-, e, -, hr⟩
  · exact hr ▸ hs
  · rw [hr, states_andThen]
    exact List.mem_append_left _ hs
  · rw [hr, states_andThen]
    exact List.mem_append_left _ hs

/-- Writing to the temporary file fails by a fault only. -/
theorem exists_filled (hcreate : faults.run (.create (t.freshSibling p)) t = .ok u)
    (hwrite : faults (.write (t.freshSibling p) content) = none) :
    ∃ v ∈ (filling faults t p content).states t, ∃ l, Filled t p content v l := by
  have hcreated : Filling t p content _ u := Filling.start.step (Faults.run_eq_ok hcreate)
  obtain ⟨v, hv⟩ : ∃ v, faults.run (.write (t.freshSibling p) content) u = .ok v := by
    cases hr : faults.run (.write (t.freshSibling p) content) u with
    | ok v => exact ⟨v, rfl⟩
    | error e =>
      rw [faults_of_filling hcreated hr (by simp)] at hwrite
      cases hwrite
  have hwritten := hcreated.step (Faults.run_eq_ok hv)
  refine ⟨v, ?_, ?_⟩
  · rw [filling, fillSteps, ofSteps_of_ok hcreate, ofSteps_of_ok hv]
    simp [states]
  · cases hwritten with
    | written hm h => exact ⟨_, hm, h.get?⟩

/-- Where the temporary file is filled, it was created and written to. -/
theorem Filled.of_mem_states (hmode : t.mode p = .ok mode)
    (hs : u ∈ (t.replaceContent faults p content backup).states t) (h : Filled t p content u l)
    (hne : utf8 content ≠ []) : (∃ v, faults.run (.create (t.freshSibling p)) t = .ok v) ∧
      faults (.write (t.freshSibling p) content) = none := by
  have hbefore : u ≠ t := by
    rintro rfl
    have hget := h.get?
    rw [get?_freshSibling h.locate] at hget
    cases hget
  cases hcreate : faults.run (.create (t.freshSibling p)) t with
  | error e =>
    have hfill : filling faults t p content = ⟨.error e, t, []⟩ := ofSteps_of_error hcreate
    rw [replaceContent_of_filling_error hmode (by rw [hfill]), hfill] at hs
    exact absurd (List.mem_singleton.1 hs) hbefore
  | ok v =>
    refine ⟨⟨v, rfl⟩, ?_⟩
    cases hwrite : faults (.write (t.freshSibling p) content) with
    | none => rfl
    | some e =>
      have hfill : filling faults t p content = ⟨.error e, v, [(.create (t.freshSibling p), v)]⟩ := by
        rw [filling, fillSteps, ofSteps_of_ok hcreate, ofSteps_of_error (Faults.run_of_fault hwrite)]
      rw [replaceContent_of_filling_error hmode (by rw [hfill]), hfill] at hs
      obtain rfl : u = v := (List.mem_pair.1 hs).resolve_left hbefore
      have hcreated : Filling t p content _ u := Filling.start.step (Faults.run_eq_ok hcreate)
      cases hcreated with
      | created hm hv =>
        obtain rfl := Except.ok.inj (hm.symm.trans h.locate)
        have hempty := Option.some.inj (hv.get?.symm.trans h.get?)
        exact absurd (congrArg File.content (Node.file.inj hempty)).symm hne

theorem utf8_ne_nil_iff : utf8 content ≠ [] ↔ content ≠ [] := by
  rw [ne_eq, ← List.length_eq_zero_iff, length_utf8, size_eq_zero_iff]

/-! ### The replacement as a whole -/

/-- A replacement that reports success has exposed nothing in the end, nor has one that no fault strikes. -/
theorem not_exposes_last (hmode : t.mode p = .ok mode)
    (h : (t.replaceContent faults p content backup).result = .ok () ∨ ∀ s, faults s = none) (l : Location) :
    ¬ Exposes t mode (t.replaceContent faults p content backup).tree l := by
  have hok : (t.replaceContent faults p content backup).result = .ok () →
      ¬ Exposes t mode (t.replaceContent faults p content backup).tree l :=
    fun hok => (swapped_of_ok hmode hok).not_exposes hmode l
  rcases h with h | h
  · exact hok h
  · obtain rfl : faults = fun _ => none := funext h
    rcases writeAtomic_cases t p content backup with ⟨-, htree, -⟩ | ⟨h, -, -⟩
    · exact not_exposes_of_get? (congrArg (get? · l) htree)
    · exact hok h

/-- Whatever faults strike, only the temporary file with all of the content is ever exposed, and nothing is behind a
replacement that succeeds or that no fault strikes. Nothing is exposed on the way either exactly if a new file grants
no more than the file, there is nothing to write, or the temporary file cannot be created or written to. -/
theorem replaceContent_unexposed_iff (faults : Faults) (t : FileTree) (p content : Text) (backup : Bool) :
    let temporary := t.freshSibling p
    let r := t.replaceContent faults p content backup
    (∀ mode, t.mode p = .ok mode →
      (∀ s ∈ r.states t, ∀ l, Exposes t mode s l → Filled t p content s l) ∧
      (r.result = .ok () ∨ (∀ s, faults s = none) → ∀ l, ¬ Exposes t mode r.tree l)) ∧
    (Unexposed faults t p content backup ↔
      ∀ mode, t.mode p = .ok mode → content ≠ [] → (∃ u, faults.run (.create temporary) t = .ok u) →
        faults (.write temporary content) = none → File.Within ⟨utf8 content, newFileMode⟩ mode) := by
  intro temporary r
  refine ⟨fun mode hmode => ⟨fun s hs l he => filled_of_mem_states hmode hs he, not_exposes_last hmode⟩,
    fun hun mode hmode hne hcreate hwrite => ?_, fun hcond mode hmode s hs l he => ?_⟩
  · obtain ⟨u, hcreate⟩ := hcreate
    obtain ⟨s, hs, l, hfilled⟩ := exists_filled hcreate hwrite
    by_contra hwide
    refine hun mode hmode s (mem_states_of_mem_filling hmode hs backup) l
      ⟨_, hfilled.get?, ?_, utf8_ne_nil_iff.2 hne, hwide⟩
    rw [get?_freshSibling hfilled.locate]
    simp
  · have hfilled := filled_of_mem_states hmode hs he
    obtain ⟨f, hf, -, hc, hwide⟩ := he
    obtain rfl := Node.file.inj (Option.some.inj (hf.symm.trans hfilled.get?))
    obtain ⟨hcreate, hwrite⟩ := hfilled.of_mem_states hmode hs hc
    exact hwide (hcond mode hmode (utf8_ne_nil_iff.1 hc) hcreate hwrite)

/-- While the file of the old key is for its owner only, all can read the new key beside it. -/
theorem not_unexposed_private_key :
    let old : File := ⟨utf8 "PrivateKey=a".toList, 0o600⟩
    let t : FileTree := ⟨[(["f".toList], .file old)], []⟩
    let r := t.writeAtomic "f".toList "PrivateKey=b".toList true
    r.result = .ok () ∧ ((r.states t).map files)[2]? =
        some [(["f".toList], old), (["f.tmp".toList], ⟨utf8 "PrivateKey=b".toList, 0o644⟩)] ∧
      ¬ Unexposed (fun _ => none) t "f".toList "PrivateKey=b".toList true := by
  intro old t r
  refine ⟨by decide +kernel, by decide +kernel, fun hun => ?_⟩
  let new : File := ⟨utf8 "PrivateKey=b".toList, 0o644⟩
  let s : FileTree := ⟨[(["f".toList], .file old), (["f.tmp".toList], .file new)], []⟩
  have hmode : t.mode "f".toList = .ok 0o600 := by decide +kernel
  have hs : s ∈ r.states t := by decide +kernel
  have hwide : ¬ new.Within 0o600 := fun h => absurd (h 2 (by decide)) (by decide)
  exact hun _ hmode s hs ["f.tmp".toList] ⟨new, by decide +kernel, by decide +kernel, by decide +kernel, hwide⟩

end FileTree

end TunnelConf
