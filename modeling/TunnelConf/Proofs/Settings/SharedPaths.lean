import Mathlib.Data.List.Induction
import TunnelConf.Proofs.Settings.Precedence
import TunnelConf.Proofs.Storage.Tree
import TunnelConf.Settings.Load

/-!
# Shared paths

Of the sources with the same path only the last one is read (`keepLast_eq_lastOfEach`). The layers that are left out
give no setting that the kept layer of the same path does not give (`highest?_lastOfEach`), so what is merged is the
same as if all had been read (`sharedPaths_lose_nothing`).
-/

namespace TunnelConf

open Text

/-! ### Layers with another source -/

/-- The same value from another source. -/
def Sourced.relabel {α : Type} (source : Source) (v : Sourced α) : Sourced α := ⟨v.value, source⟩

namespace Layer

variable {l : Layer} {source : Source}

/-- The same values from another source. -/
def relabel (source : Source) (l : Layer) : Layer where
  backup := l.backup.map (Sourced.relabel source)
  level := l.level.map (Sourced.relabel source)
  severity := l.severity.map fun e => (e.1, e.2.relabel source)

theorem lookup_map {α β : Type} (f : α → β) (es : List (Text × α)) (key : Text) :
    (es.map fun e => (e.1, f e.2)).lookup key = (es.lookup key).map f := by
  induction es with
  | nil => rfl
  | cons e es ih =>
    rw [List.map_cons, lookup_cons_eq_ite, lookup_cons_eq_ite, ih]
    split
    · rfl
    · rfl

theorem severity?_relabel (slug : Text) :
    (l.relabel source).severity? slug = (l.severity? slug).map (Sourced.relabel source) := by
  rw [severity?, relabel, ← List.map_reverse, lookup_map, severity?]

end Layer

theorem SettingsFile.read?_relabel (content : Text) (s s' : Source) :
    read? content s' = (read? content s).map (Layer.relabel s') := by
  have hmap : ∀ (backup : Option Bool) (severity : Option (List (Text × Text))) (level : Option Text),
      Layer.mk (backup.map (⟨·, s'⟩)) (level.map (⟨·, s'⟩)) ((severity.getD []).map fun e => (e.1, ⟨e.2, s'⟩)) =
        Layer.relabel s' ⟨backup.map (⟨·, s⟩), level.map (⟨·, s⟩),
          (severity.getD []).map fun e => (e.1, ⟨e.2, s⟩)⟩ := by
    intro backup severity level
    simp [Layer.relabel, Sourced.relabel, Function.comp_def]
  simp only [read?, bind, pure, hmap, Option.map_bind, Function.comp_def, Option.map_some]

namespace Settings

variable {t : FileTree} {s s' : Source} {ss : List Source}

/-- Two sources have the same path. -/
def SamePath (s s' : Source) : Prop := s.path.map Path.components = s'.path.map Path.components

instance : DecidableRel SamePath := fun s s' =>
  inferInstanceAs (Decidable (s.path.map Path.components = s'.path.map Path.components))

/-! ### The last source of each path -/

/-- Of the sources with the same path the last one. -/
def lastOfEach : List Source → List Source
  | [] => []
  | s :: ss => if ∃ s' ∈ ss, SamePath s s' then lastOfEach ss else s :: lastOfEach ss

theorem lastOfEach_sublist (ss : List Source) : (lastOfEach ss).Sublist ss := by
  induction ss with
  | nil => exact .slnil
  | cons s ss ih =>
    rw [lastOfEach]
    split
    · exact ih.cons s
    · exact ih.cons_cons s

theorem pairwise_lastOfEach (ss : List Source) : (lastOfEach ss).Pairwise fun s s' => ¬ SamePath s s' := by
  induction ss with
  | nil => exact .nil
  | cons s ss ih =>
    rw [lastOfEach]
    split
    · exact ih
    · next hno => exact List.pairwise_cons.2 ⟨fun s' hs' hsame =>
        hno ⟨s', (lastOfEach_sublist ss).mem hs', hsame⟩, ih⟩

theorem exists_mem_lastOfEach (hs : s ∈ ss) : ∃ s' ∈ lastOfEach ss, SamePath s s' := by
  induction ss generalizing s with
  | nil => cases hs
  | cons s₀ ss ih =>
    rw [lastOfEach]
    rcases List.mem_cons.1 hs with rfl | hs
    · split
      · next hex =>
        obtain ⟨s₁, hs₁, hsame⟩ := hex
        obtain ⟨s', hs', hsame'⟩ := ih hs₁
        exact ⟨s', hs', hsame.trans hsame'⟩
      · exact ⟨s, List.mem_cons_self, rfl⟩
    · obtain ⟨s', hs', hsame⟩ := ih hs
      split
      · exact ⟨s', hs', hsame⟩
      · exact ⟨s', List.mem_cons_of_mem _ hs', hsame⟩

theorem lastOfEach_concat (ss : List Source) (s : Source) :
    lastOfEach (ss ++ [s]) = (lastOfEach ss).filter (fun s' => ¬ SamePath s' s) ++ [s] := by
  induction ss with
  | nil => rfl
  | cons s₀ ss ih =>
    rw [List.cons_append, lastOfEach, lastOfEach, ih]
    by_cases hex : ∃ s' ∈ ss, SamePath s₀ s'
    · have hex' : ∃ s' ∈ ss ++ [s], SamePath s₀ s' :=
        hex.imp fun s' h => ⟨List.mem_append_left _ h.1, h.2⟩
      rw [if_pos hex, if_pos hex']
    · by_cases hsame : SamePath s₀ s
      · rw [if_neg hex, if_pos ⟨s, by simp, hsame⟩, List.filter_cons_of_neg (by simpa using hsame)]
      · have hno : ¬ ∃ s' ∈ ss ++ [s], SamePath s₀ s' := by
          rintro ⟨s', hs', h⟩
          rcases List.mem_append.1 hs' with hs' | hs'
          · exact hex ⟨s', hs', h⟩
          · exact hsame (List.mem_singleton.1 hs' ▸ h)
        rw [if_neg hex, if_neg hno, List.filter_cons_of_pos (by simpa using hsame), List.cons_append]

theorem keepLast_eq_lastOfEach (t : FileTree) (ss : List Source) :
    keepLast t ss = lastOfEach (ss.filter fun s => s.path.any t.pathExists) := by
  rw [keepLast]
  generalize (ss.filter fun s => s.path.any t.pathExists) = existing
  -- The fold goes from left to right and `lastOfEach` from right to left.
  induction existing using List.reverseRecOn with
  | nil => rfl
  | append_singleton existing s ih =>
    rw [List.foldl_concat, ih, lastOfEach_concat, addSource]
    congr 2
    funext s'
    exact Bool.eq_iff_iff.2 (bne_iff_ne.trans decide_eq_true_iff.symm)

/-! ### What the layers give -/

/-- Sources with the same path give the same values. -/
theorem eq_relabel_of_samePath (h : SamePath s s') (hs : s.path.any t.pathExists = true)
    (hs' : s'.path.any t.pathExists = true) {l l' : Layer} (hl : readLayer t s = .ok l)
    (hl' : readLayer t s' = .ok l') : l' = l.relabel s' := by
  obtain ⟨p, hp, hexists⟩ := (Option.any_eq_true _ _).1 hs
  obtain ⟨p', hp', hexists'⟩ := (Option.any_eq_true _ _).1 hs'
  rw [SamePath, hp, hp', Option.map_some, Option.map_some, Option.some_inj] at h
  have htext : t.readText p = t.readText p' := by
    rw [FileTree.readText, FileTree.readText, FileTree.readBytes, FileTree.readBytes,
      FileTree.node_eq_of_components h hexists hexists']
  simp only [readLayer, hp, hp', ← htext, SettingsFile.read?_relabel _ s s'] at hl hl'
  cases hread : t.readText p with
  | error e => rw [hread] at hl; cases hl
  | ok content =>
    rw [hread] at hl hl'
    cases hlayer : SettingsFile.read? content s with
    | none => simp [hlayer] at hl
    | some layer =>
      simp only [hlayer, Option.map_some, Except.ok.injEq] at hl hl'
      rw [← hl', hl]

/-- The layer of a source, if it can be read. -/
def layerOf (t : FileTree) (s : Source) : Layer := (readLayer t s).toOption.getD .empty

theorem mapM_readLayer (h : ∀ s ∈ ss, ∃ l, readLayer t s = .ok l) :
    ss.mapM (readLayer t) = .ok (ss.map (layerOf t)) := by
  induction ss with
  | nil => rfl
  | cons s ss ih =>
    obtain ⟨⟨l, hl⟩, hss⟩ := List.forall_mem_cons.1 h
    rw [List.mapM_cons, hl, ih hss, List.map_cons, layerOf, hl]
    rfl

/-- Where the later of two sources with the same path gives what the earlier one gives, the last ones suffice. -/
theorem highest?_lastOfEach {α : Type} {given : Layer → Option α} {layer : Source → Layer}
    (h : ∀ s ∈ ss, ∀ s' ∈ ss, SamePath s s' → given (layer s') = none → given (layer s) = none) :
    Layer.highest? given ((lastOfEach ss).map layer) = Layer.highest? given (ss.map layer) := by
  induction ss with
  | nil => rfl
  | cons s ss ih =>
    have htail := ih fun s₁ hs₁ s₂ hs₂ => h s₁ (List.mem_cons_of_mem s hs₁) s₂ (List.mem_cons_of_mem s hs₂)
    rw [lastOfEach, List.map_cons, Layer.highest?_cons]
    split
    -- Without `s` something is missing only if nothing follows that gives a value, its later copy included.
    · next hex =>
      obtain ⟨s', hs', hsame⟩ := hex
      cases hrest : Layer.highest? given (ss.map layer) with
      | some a => rw [htail, hrest, Option.some_or]
      | none =>
        have hnone := Layer.highest?_eq_none_iff.1 hrest _ (List.mem_map_of_mem hs')
        rw [htail, hrest, h s List.mem_cons_self s' (List.mem_cons_of_mem s hs') hsame hnone, Option.none_or]
    · rw [List.map_cons, Layer.highest?_cons, htail]

theorem sameHighest_lastOfEach (hexists : ∀ s ∈ ss, s.path.any t.pathExists = true)
    (hread : ∀ s ∈ ss, ∃ l, readLayer t s = .ok l) :
    Layer.SameHighest ((lastOfEach ss).map (layerOf t)) (ss.map (layerOf t)) := by
  have hlayer : ∀ s ∈ ss, ∀ s' ∈ ss, SamePath s s' → layerOf t s' = (layerOf t s).relabel s' := by
    intro s hs s' hs' hsame
    obtain ⟨l, hl⟩ := hread s hs
    obtain ⟨l', hl'⟩ := hread s' hs'
    have heq := eq_relabel_of_samePath hsame (hexists s hs) (hexists s' hs') hl hl'
    rw [layerOf, layerOf, hl, hl', heq]
    rfl
  refine ⟨highest?_lastOfEach ?_, highest?_lastOfEach ?_, fun slug => highest?_lastOfEach ?_⟩
  · intro s hs s' hs' hsame
    simp [hlayer s hs s' hs' hsame, Layer.relabel]
  · intro s hs s' hs' hsame
    simp [hlayer s hs s' hs' hsame, Layer.relabel]
  · intro s hs s' hs' hsame
    simp [hlayer s hs s' hs' hsame, Layer.severity?_relabel]

theorem load_of_readable {o : LoadOptions} {l : Location} {layers : List Layer} (hl : startingPoint t o = .ok l)
    (hoverride : ∀ p ∈ o.override, t.pathExists (Path.join l.path p) = true)
    (hlayers : (keepLast t (candidates t l (o.override.map (Path.join l.path)))).mapM (readLayer t) = .ok layers) :
    load t o = (Layer.mergeAll layers).finish.mapError .invalid := by
  have hdiscover : discover t l o.override = .ok (keepLast t (candidates t l (o.override.map (Path.join l.path)))) := by
    rw [discover]
    cases ho : o.override with
    | none => rfl
    | some p => simp [hoverride p ho]
  simp only [load, hl, hdiscover, hlayers, bind, Except.bind]

/-! ### Main statement -/

/-- Of candidates in ascending precedence the last one of each path that exists is kept, in the same order. If all
that exist can be read, those that are kept merge to the same settings from the same sources as all of them, and to
these come the settings that are loaded. -/
theorem sharedPaths_lose_nothing (t : FileTree) (ss : List Source)
    (h : ∀ s ∈ ss, s.path.any t.pathExists = true → ∃ layer, readLayer t s = .ok layer) :
    let existing := ss.filter fun s => s.path.any t.pathExists
    keepLast t ss = lastOfEach existing ∧ (keepLast t ss).Sublist ss ∧
    (keepLast t ss).Pairwise (fun s s' => ¬ SamePath s s') ∧
    (∀ s ∈ ss, s.path.any t.pathExists = true → ∃ s' ∈ keepLast t ss, SamePath s s') ∧
    ∃ all kept, existing.mapM (readLayer t) = .ok all ∧ (keepLast t ss).mapM (readLayer t) = .ok kept ∧
      (Layer.mergeAll kept).Alike (Layer.mergeAll all) ∧
      (Layer.mergeAll kept).finish = (Layer.mergeAll all).finish ∧
      ∀ o l, startingPoint t o = .ok l → ss = candidates t l (o.override.map (Path.join l.path)) →
        (∀ p ∈ o.override, t.pathExists (Path.join l.path p) = true) →
        load t o = (Layer.mergeAll all).finish.mapError .invalid := by
  intro existing
  have hexists : ∀ s ∈ existing, s.path.any t.pathExists = true := fun s hs => (List.mem_filter.1 hs).2
  have hread : ∀ s ∈ existing, ∃ l, readLayer t s = .ok l := fun s hs => h s (List.mem_filter.1 hs).1 (hexists s hs)
  have heq : keepLast t ss = lastOfEach existing := keepLast_eq_lastOfEach t ss
  have hkept : (keepLast t ss).mapM (readLayer t) = .ok ((lastOfEach existing).map (layerOf t)) := by
    rw [heq]
    exact mapM_readLayer fun s hs => hread s ((lastOfEach_sublist existing).mem hs)
  have hsame := sameHighest_lastOfEach hexists hread
  refine ⟨heq, ?_, ?_, ?_, _, _, mapM_readLayer hread, hkept, hsame.alike, hsame.finish_eq, ?_⟩
  · exact heq ▸ (lastOfEach_sublist existing).trans List.filter_sublist
  · exact heq ▸ pairwise_lastOfEach existing
  · intro s hs hpath
    exact heq ▸ exists_mem_lastOfEach (List.mem_filter.2 ⟨hs, hpath⟩)
  · rintro o l hl rfl hoverride
    rw [load_of_readable hl hoverride hkept, hsame.finish_eq]

/-- The file that is named is the one at the root of the repository, and the one in the working directory lies
between. -/
theorem sharedPaths_lose_nothing_named_twice :
    let shared := "[edit]\nbackup = false\n[check.severity]\nunrecognized-key = \"info\"\n".toList
    let between := "[edit]\nbackup = true\n[log]\nlevel = \"debug\"\n".toList
    let t : FileTree := ⟨[(["r".toList], .directory), (["r".toList, ".git".toList], .directory),
      (["r".toList, fileName], .file ⟨utf8 shared, 0o644⟩), (["r".toList, "s".toList], .directory),
      (["r".toList, "s".toList, fileName], .file ⟨utf8 between, 0o644⟩)], ["r".toList, "s".toList]⟩
    let ss := candidates t t.here (some "/r//.wgconf.toml".toList)
    ss.map Source.kind = [.gitRoot, .local, .override] ∧
      (keepLast t ss).map Source.kind = [.local, .override] ∧
      (∀ s ∈ ss, s.path.any t.pathExists = true → ∃ layer, readLayer t s = .ok layer) ∧
      ∃ all kept, (ss.filter fun s => s.path.any t.pathExists).mapM (readLayer t) = .ok all ∧
        (keepLast t ss).mapM (readLayer t) = .ok kept ∧ (Layer.mergeAll kept).Alike (Layer.mergeAll all) := by
  intro shared between t ss
  have hread : ∀ s ∈ ss, (readLayer t s).isOk = true := by decide +kernel
  have h : ∀ s ∈ ss, s.path.any t.pathExists = true → ∃ layer, readLayer t s = .ok layer := fun s hs _ => by
    have hok := hread s hs
    cases hlayer : readLayer t s with
    | error e => rw [hlayer] at hok; cases hok
    | ok layer => exact ⟨layer, rfl⟩
  refine ⟨by decide +kernel, by decide +kernel, h, ?_⟩
  obtain ⟨-, -, -, -, all, kept, hall, hkept, halike, -⟩ := sharedPaths_lose_nothing t ss h
  exact ⟨all, kept, hall, hkept, halike⟩

end Settings

end TunnelConf
