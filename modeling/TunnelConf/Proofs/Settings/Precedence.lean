import Mathlib.Data.List.Perm.Basic
import TunnelConf.Proofs.Settings.Finish

/-!
# Precedence of layers

Merging keeps for each setting what the highest layer gives for it (`highest?`), value and source. So layers that
agree on that merge to the same (`alike_mergeAll`). Main statement: `settings_of_highest`, the outcome comes from
the highest layers alone.
-/

namespace TunnelConf

open Text

namespace Layer

/-! ### Entries -/

section Put

variable {α : Type} {e : Text × α} {es es' : List (Text × α)} {key : Text}

theorem lookup_cons_eq_ite : (e :: es).lookup key = if key = e.1 then some e.2 else es.lookup key := by
  rw [List.lookup_cons]
  by_cases h : key = e.1
  · simp [h]
  · simp [h, beq_eq_false_iff_ne.2 h]

theorem lookup_put : (put e es).lookup key = if key = e.1 then some e.2 else es.lookup key := by
  induction es with
  | nil => simp [put, lookup_cons_eq_ite]
  | cons d ds ih =>
    by_cases hd : d.1 = e.1
    · by_cases h : key = e.1 <;> simp [put, lookup_cons_eq_ite, hd, h]
    · by_cases h : key = d.1
      · simp [put, lookup_cons_eq_ite, hd, h]
      · simp [put, lookup_cons_eq_ite, hd, h, ih]

/-- Of entries that are put one after another the last one with the key counts. -/
theorem lookup_foldl_put (hs es : List (Text × α)) :
    (hs.foldl (fun es e => put e es) es).lookup key = (hs.reverse.lookup key).or (es.lookup key) := by
  induction hs generalizing es with
  | nil => simp
  | cons e hs ih =>
    rw [List.foldl_cons, ih, lookup_put, List.reverse_cons, List.lookup_append, Option.or_assoc, lookup_cons_eq_ite]
    by_cases h : key = e.1 <;> simp [h]

theorem mem_put_fst : key ∈ (put e es).map Prod.fst ↔ key = e.1 ∨ key ∈ es.map Prod.fst := by
  induction es with
  | nil => simp [put]
  | cons d ds ih =>
    by_cases hd : d.1 = e.1
    · simp [put, hd]
    · simp only [put, hd, beq_iff_eq, if_false, List.map_cons, List.mem_cons, ih]
      tauto

theorem nodup_put (h : (es.map Prod.fst).Nodup) : ((put e es).map Prod.fst).Nodup := by
  induction es with
  | nil => simp [put]
  | cons d ds ih =>
    obtain ⟨hd, hds⟩ := List.nodup_cons.1 h
    by_cases hde : d.1 = e.1
    · simpa [put, hde] using h
    · simp only [put, hde, beq_iff_eq, if_false, List.map_cons, List.nodup_cons]
      exact ⟨fun hmem => (mem_put_fst.1 hmem).elim hde hd, ih hds⟩

theorem nodup_foldl_put (hs : List (Text × α)) (h : (es.map Prod.fst).Nodup) :
    ((hs.foldl (fun es e => put e es) es).map Prod.fst).Nodup := by
  induction hs generalizing es with
  | nil => exact h
  | cons e hs ih => exact ih (nodup_put h)

theorem mem_iff_lookup {κ : Type} [BEq κ] [LawfulBEq κ] {es : List (κ × α)} {key : κ} {a : α}
    (h : (es.map Prod.fst).Nodup) : (key, a) ∈ es ↔ es.lookup key = some a := by
  rw [List.lookup_eq_some_iff]
  constructor
  · intro hmem
    obtain ⟨front, back, rfl⟩ := List.append_of_mem hmem
    rw [List.map_append, List.nodup_append] at h
    refine ⟨front, back, rfl, fun p hp => bne_iff_ne.2 fun hkey => ?_⟩
    exact h.2.2 p.1 (List.mem_map_of_mem hp) key (by simp) hkey.symm
  · rintro ⟨front, back, rfl, -⟩
    simp

theorem perm_of_lookup (h : (es.map Prod.fst).Nodup) (h' : (es'.map Prod.fst).Nodup)
    (heq : ∀ key, es.lookup key = es'.lookup key) : es.Perm es' := by
  refine (List.perm_ext_iff_of_nodup h.of_map h'.of_map).2 fun ⟨key, a⟩ => ?_
  rw [mem_iff_lookup h, mem_iff_lookup h', heq]

end Put

/-! ### Highest layers -/

/-- What the highest of some layers in ascending precedence gives that gives anything. -/
def highest? {α : Type} (given : Layer → Option α) (layers : List Layer) : Option α := layers.reverse.findSome? given

/-- What a layer gives for a slug; of two entries with the same slug the last one counts. -/
def severity? (slug : Text) (l : Layer) : Option (Sourced Text) := l.severity.reverse.lookup slug

section Highest

variable {α : Type} {given : Layer → Option α} {layers : List Layer}

theorem highest?_append (low high : List Layer) :
    highest? given (low ++ high) = (highest? given high).or (highest? given low) := by
  rw [highest?, List.reverse_append, List.findSome?_append]
  rfl

theorem highest?_cons (l : Layer) (layers : List Layer) :
    highest? given (l :: layers) = (highest? given layers).or (given l) := by
  rw [← List.singleton_append, highest?_append]
  cases hl : given l <;> simp [highest?, hl]

theorem highest?_eq_none_iff : highest? given layers = none ↔ ∀ l ∈ layers, given l = none := by
  simp [highest?, List.findSome?_eq_none_iff]

/-- What is merged takes after the highest layer in all for which one layer takes after the higher of two. -/
theorem value_foldl_merge (value : Layer → Option α)
    (h : ∀ low high, value (merge low high) = (given high).or (value low)) (layers : List Layer) (base : Layer) :
    value (layers.foldl merge base) = (highest? given layers).or (value base) := by
  -- `l` goes over the base first, so all other layers are higher.
  induction layers generalizing base with
  | nil => rfl
  | cons l layers ih => rw [List.foldl_cons, ih, h, highest?_cons, Option.or_assoc]

end Highest

/-! ### Merged layers -/

theorem backup_mergeAll (layers : List Layer) :
    (mergeAll layers).backup = (highest? backup layers).or (some ⟨true, ⟨.builtIn, none⟩⟩) :=
  value_foldl_merge backup (fun _ _ => rfl) layers defaults

theorem level_mergeAll (layers : List Layer) :
    (mergeAll layers).level = (highest? level layers).or (some ⟨"warn".toList, ⟨.builtIn, none⟩⟩) :=
  value_foldl_merge level (fun _ _ => rfl) layers defaults

theorem lookup_mergeAll (layers : List Layer) (slug : Text) :
    (mergeAll layers).severity.lookup slug = highest? (severity? slug) layers := by
  have h : (mergeAll layers).severity.lookup slug = (highest? (severity? slug) layers).or none :=
    value_foldl_merge (fun l => l.severity.lookup slug)
      (fun low high => lookup_foldl_put high.severity low.severity) layers defaults
  rw [h, Option.or_none]

theorem distinct_merge {low : Layer} (h : low.Distinct) (high : Layer) : (merge low high).Distinct :=
  nodup_foldl_put high.severity h

theorem distinct_mergeAll (layers : List Layer) : (mergeAll layers).Distinct :=
  List.foldlRecOn (motive := Distinct) layers merge List.nodup_nil fun _ hlow high _ => distinct_merge hlow high

theorem mem_mergeAll_iff {layers : List Layer} {slug : Text} {v : Sourced Text} :
    (slug, v) ∈ (mergeAll layers).severity ↔ highest? (severity? slug) layers = some v := by
  rw [mem_iff_lookup (distinct_mergeAll layers), lookup_mergeAll]

theorem map_grade_eq_some_iff {l : Layer} {s : Settings} (h : l.finish = .ok s) (hd : l.Distinct) {f : Finding}
    {value : Text} : (s.grade f).map Severity.name = some value ↔ ∃ v, (f.slug, v) ∈ l.severity ∧ v.value = value := by
  rw [← severity_iff h, Option.map_eq_some_iff]
  simp only [Settings.grade, ← mem_iff_lookup (nodup_severity h hd)]
  constructor
  · rintro ⟨severity, hmem, hname⟩
    exact ⟨f, severity, hmem, rfl, hname⟩
  · rintro ⟨g, severity, hmem, hslug, hname⟩
    obtain rfl := Finding.slug_inj.1 hslug
    exact ⟨severity, hmem, hname⟩

/-- The highest layers of two lists agree. -/
structure SameHighest (layers layers' : List Layer) : Prop where
  backup : highest? backup layers = highest? backup layers'
  level : highest? level layers = highest? level layers'
  severity : ∀ slug, highest? (severity? slug) layers = highest? (severity? slug) layers'

theorem SameHighest.alike {layers layers' : List Layer} (h : SameHighest layers layers') :
    (mergeAll layers).Alike (mergeAll layers') where
  backup := by rw [backup_mergeAll, backup_mergeAll, h.backup]
  level := by rw [level_mergeAll, level_mergeAll, h.level]
  severity := perm_of_lookup (distinct_mergeAll _) (distinct_mergeAll _) fun slug => by
    rw [lookup_mergeAll, lookup_mergeAll, h.severity]

theorem SameHighest.finish_eq {layers layers' : List Layer} (h : SameHighest layers layers') :
    (mergeAll layers).finish = (mergeAll layers').finish :=
  h.alike.finish_eq (distinct_mergeAll _)

/-- Two layers say the same, but for what a layer of `above` says too. -/
structure SameBelow (above : List Layer) (l l' : Layer) : Prop where
  backup : (∀ h ∈ above, h.backup = none) → l.backup = l'.backup
  level : (∀ h ∈ above, h.level = none) → l.level = l'.level
  severity : ∀ slug, (∀ h ∈ above, h.severity? slug = none) → l.severity? slug = l'.severity? slug

theorem highest?_eq_of_below {α : Type} {given : Layer → Option α} {above : List Layer} {l l' : Layer}
    (h : (∀ h ∈ above, given h = none) → given l = given l') (below : List Layer) :
    highest? given (below ++ l :: above) = highest? given (below ++ l' :: above) := by
  rw [highest?_append, highest?_append, highest?_cons, highest?_cons]
  cases habove : highest? given above with
  | none => rw [h (highest?_eq_none_iff.1 habove)]
  | some a => rfl

theorem SameBelow.sameHighest {above : List Layer} {l l' : Layer} (h : SameBelow above l l') (below : List Layer) :
    SameHighest (below ++ l :: above) (below ++ l' :: above) :=
  ⟨highest?_eq_of_below h.backup below, highest?_eq_of_below h.level below, fun slug =>
    highest?_eq_of_below (h.severity slug) below⟩

/-! ### Main statement -/

/-- The settings in effect are those of the highest layers, or the built-in ones, and nothing else counts for the
outcome: no value of a layer for which a higher layer has one, valid or not. -/
theorem settings_of_highest (layers : List Layer) :
    (∀ s, (mergeAll layers).finish = .ok s →
      s.backup = (highest? backup layers).elim true Sourced.value ∧
      s.level.name = lower (trim ((highest? level layers).elim "warn".toList Sourced.value)) ∧
      ∀ f, (s.grade f).map Severity.name = (highest? (severity? f.slug) layers).map Sourced.value) ∧
    (∀ layers', SameHighest layers layers' → (mergeAll layers).finish = (mergeAll layers').finish) ∧
    ∀ below l l' above, layers = below ++ l :: above → SameBelow above l l' →
      (mergeAll layers).finish = (mergeAll (below ++ l' :: above)).finish := by
  refine ⟨fun s hs => ⟨?_, ?_, fun f => ?_⟩, fun layers' h => h.finish_eq, ?_⟩
  · obtain ⟨-, hbackup, -⟩ := finish_eq_ok_iff.1 hs
    rw [hbackup, backup_mergeAll]
    cases highest? backup layers <;> rfl
  · obtain ⟨-, -, hlevel, -⟩ := finish_eq_ok_iff.1 hs
    rw [hlevel, effectiveLevel, level_mergeAll]
    cases highest? level layers <;> rfl
  · ext value
    rw [map_grade_eq_some_iff hs (distinct_mergeAll layers), Option.map_eq_some_iff]
    exact exists_congr fun v => and_congr_left fun _ => mem_mergeAll_iff
  · rintro below l l' above rfl h
    exact (h.sameHighest below).finish_eq

/-- The invalid values of the lower layer might as well be missing. -/
theorem settings_of_highest_overridden :
    let low : Layer := ⟨none, some ⟨"loud".toList, ⟨.gitRoot, none⟩⟩,
      [("unrecognized-key".toList, ⟨"fatal".toList, ⟨.gitRoot, none⟩⟩)]⟩
    let high : Layer := ⟨none, some ⟨" DEBUG\n".toList, ⟨.local, none⟩⟩,
      [("unrecognized-key".toList, ⟨"info".toList, ⟨.local, none⟩⟩)]⟩
    SameBelow [high] low empty ∧ (mergeAll [low, high]).finish = (mergeAll [empty, high]).finish := by
  intro low high
  have hsame : SameBelow [high] low empty := by
    refine ⟨fun _ => rfl, fun h => ?_, fun slug h => ?_⟩
    · cases h high (List.mem_singleton_self _)
    · have hslug : slug ≠ "unrecognized-key".toList := by
        rintro rfl
        cases h high (List.mem_singleton_self _)
      exact lookup_cons_eq_ite.trans (if_neg hslug)
  exact ⟨hsame, (settings_of_highest [low, high]).2.2 [] low empty [high] rfl hsame⟩

end Layer

end TunnelConf
