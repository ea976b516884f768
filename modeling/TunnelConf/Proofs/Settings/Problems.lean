import Mathlib.Data.List.Forall2
import TunnelConf.Proofs.Settings.Precedence

/-!
# The problems of settings

A layer has all problems of its values listed (`exists_reported`): that of the level stands in front, and those of
the entries follow by slug, one for each slug that has one. Main statement: `problems_in_effect`, for merged layers
these are the problems of the values in effect, with their sources, in whatever order the entries came.
-/

namespace TunnelConf

open Text

namespace Layer

/-! ### Slugs with problems -/

/-- The slugs of the entries that have a problem. -/
def offending (es : List (Text × Sourced Text)) : List Text :=
  (es.filter fun e => (problem? (checkEntry e)).isSome).map Prod.fst

theorem mem_offending_iff {es : List (Text × Sourced Text)} {slug : Text} :
    slug ∈ offending es ↔ ∃ v p, (slug, v) ∈ es ∧ Offends slug v p := by
  simp only [offending, List.mem_map, List.mem_filter, Option.isSome_iff_exists, problem?_checkEntry_eq_some_iff]
  constructor
  · rintro ⟨⟨slug, v⟩, ⟨he, p, hp⟩, rfl⟩
    exact ⟨v, p, he, hp⟩
  · rintro ⟨v, p, he, hp⟩
    exact ⟨_, ⟨he, p, hp⟩, rfl⟩

theorem forall₂_offending (es : List (Text × Sourced Text)) :
    List.Forall₂ (fun slug p => ∃ v, (slug, v) ∈ es ∧ Offends slug v p) (offending es)
      ((es.map checkEntry).filterMap problem?) := by
  induction es with
  | nil => exact .nil
  | cons e es ih =>
    have htail : List.Forall₂ (fun slug p => ∃ v, (slug, v) ∈ e :: es ∧ Offends slug v p) (offending es)
        ((es.map checkEntry).filterMap problem?) :=
      ih.imp fun _ _ h => h.imp fun _ hv => ⟨List.mem_cons_of_mem e hv.1, hv.2⟩
    rw [offending, List.filter_cons, List.map_cons, List.filterMap_cons]
    cases hp : problem? (checkEntry e) with
    | none => exact htail
    | some p => exact .cons ⟨e.2, List.mem_cons_self, problem?_checkEntry_eq_some_iff.1 hp⟩ htail

/-- The problem of a level, if it has one, and those of the values that `entry` has for slugs, one for each of
`slugs`. -/
structure Reported (level : Sourced Text) (entry : Text → Option (Sourced Text)) (front : Option (Sourced Problem))
    (slugs : List Text) (back : List (Sourced Problem)) : Prop where
  front_iff : ∀ p, front = some p ↔ UnknownLevel level ∧ p = ⟨.unknownLevel level.value, level.source⟩
  sorted : slugs.Pairwise (· < ·)
  mem_iff : ∀ slug, slug ∈ slugs ↔ ∃ v p, entry slug = some v ∧ Offends slug v p
  each : List.Forall₂ (fun slug p => ∃ v, entry slug = some v ∧ Offends slug v p) slugs back

variable {l : Layer}

theorem exists_reported (h : l.Distinct) : ∃ front slugs back, l.problems = front.toList ++ back ∧
    Reported l.effectiveLevel (fun slug => l.severity.lookup slug) front slugs back := by
  have hmem : ∀ {slug v}, (slug, v) ∈ l.entries ↔ l.severity.lookup slug = some v := fun {slug v} =>
    l.entries_perm.mem_iff.trans (mem_iff_lookup h)
  refine ⟨_, offending l.entries, _, rfl, fun p => problem?_checkLevel_eq_some_iff, ?_, fun slug => ?_, ?_⟩
  · exact List.pairwise_map.2 ((pairwise_entries h).filter _)
  · rw [mem_offending_iff]
    exact exists₂_congr fun v p => and_congr_left fun _ => hmem
  · exact (forall₂_offending l.entries).imp fun slug p => Exists.imp fun v hv => ⟨hmem.1 hv.1, hv.2⟩

/-- A layer has problems just if its level or an entry is wrong. -/
theorem finish_fails_iff : (∃ ps, l.finish = .error ps) ↔ UnknownLevel l.effectiveLevel ∨
    ∃ e ∈ l.severity, (∀ f : Finding, f.slug ≠ e.1) ∨ ∀ severity : Severity, severity.name ≠ e.2.value := by
  have hmem : (∃ ps, l.finish = .error ps) ↔ ∃ p, p ∈ l.problems := by
    rw [← not_iff_not, not_exists (p := fun p => p ∈ l.problems), ← List.eq_nil_iff_forall_not_mem]
    simp [finish_eq_error_iff]
  simp only [hmem, mem_problems_iff, ← exists_offends_iff]
  constructor
  · rintro ⟨p, ⟨h, -⟩ | ⟨e, he, hp⟩⟩
    · exact .inl h
    · exact .inr ⟨e, he, p, hp⟩
  · rintro (h | ⟨e, he, p, hp⟩)
    · exact ⟨_, .inl ⟨h, rfl⟩⟩
    · exact ⟨p, .inr ⟨e, he, hp⟩⟩

/-! ### Merged layers -/

/-- The level of the highest layer that gives one. -/
def levelInEffect (layers : List Layer) : Sourced Text :=
  (highest? level layers).getD ⟨"warn".toList, ⟨.builtIn, none⟩⟩

/-- What the highest layer that has an entry for a slug gives for it. -/
def severityInEffect? (layers : List Layer) (slug : Text) : Option (Sourced Text) := highest? (severity? slug) layers

section InEffect

variable {layers : List Layer} (hl : l.Alike (mergeAll layers))

include hl

theorem Alike.effectiveLevel_eq : l.effectiveLevel = levelInEffect layers := by
  rw [effectiveLevel, hl.level, level_mergeAll, levelInEffect]
  cases highest? Layer.level layers <;> rfl

theorem Alike.mem_iff {slug : Text} {v : Sourced Text} :
    (slug, v) ∈ l.severity ↔ severityInEffect? layers slug = some v :=
  hl.severity.mem_iff.trans mem_mergeAll_iff

theorem Alike.lookup_eq : (fun slug => l.severity.lookup slug) = severityInEffect? layers := by
  funext slug
  ext v
  rw [← hl.mem_iff, mem_iff_lookup (hl.distinct (distinct_mergeAll layers))]

end InEffect

/-! ### Main statement -/

/-- Merged layers, their entries in any order, have problems just if the level or an entry in effect is wrong. These
are all listed, in one order. Otherwise the severities are those of the entries in effect. -/
theorem problems_in_effect {l : Layer} {layers : List Layer} (hl : l.Alike (mergeAll layers)) :
    l.finish = (mergeAll layers).finish ∧
    ((∃ ps, l.finish = .error ps) ↔ UnknownLevel (levelInEffect layers) ∨
      ∃ slug v, severityInEffect? layers slug = some v ∧
        ((∀ f : Finding, f.slug ≠ slug) ∨ ∀ severity : Severity, severity.name ≠ v.value)) ∧
    (∀ ps, l.finish = .error ps → ∃ front slugs back, ps = front.toList ++ back ∧
      Reported (levelInEffect layers) (severityInEffect? layers) front slugs back) ∧
    ∀ s, l.finish = .ok s → (s.severity.map Prod.fst).Nodup ∧ ∀ slug value,
      (∃ f severity, (f, severity) ∈ s.severity ∧ f.slug = slug ∧ severity.name = value) ↔
        (severityInEffect? layers slug).map Sourced.value = some value := by
  have hdistinct := hl.distinct (distinct_mergeAll layers)
  refine ⟨hl.finish_eq (distinct_mergeAll layers), ?_, fun ps hps => ?_, fun s hs => ⟨nodup_severity hs hdistinct, ?_⟩⟩
  · rw [finish_fails_iff, hl.effectiveLevel_eq, Prod.exists]
    simp only [hl.mem_iff]
  · obtain ⟨rfl, -⟩ := finish_eq_error_iff.1 hps
    rw [← hl.effectiveLevel_eq, ← hl.lookup_eq]
    exact exists_reported hdistinct
  · intro slug value
    rw [severity_iff hs, Option.map_eq_some_iff]
    simp only [hl.mem_iff]

/-- The entries of two layers in the opposite order. -/
theorem problems_in_effect_reversed :
    let low : Layer := ⟨none, none, [("bogus".toList, ⟨"error".toList, ⟨.gitRoot, none⟩⟩)]⟩
    let high : Layer := ⟨some ⟨false, ⟨.local, none⟩⟩, some ⟨"loud".toList, ⟨.local, none⟩⟩,
      [("invalid-endpoint".toList, ⟨"fatal".toList, ⟨.local, none⟩⟩)]⟩
    let merged := mergeAll [low, high]
    let reversed := { merged with severity := merged.severity.reverse }
    reversed.Alike merged ∧ reversed.finish = merged.finish ∧ ∃ ps, reversed.finish = .error ps := by
  intro low high merged reversed
  have halike : reversed.Alike merged := ⟨rfl, rfl, List.reverse_perm _⟩
  obtain ⟨heq, hfails, -⟩ := problems_in_effect halike
  exact ⟨halike, heq, hfails.2 (.inl fun level => by cases level <;> decide)⟩

end Layer

end TunnelConf
