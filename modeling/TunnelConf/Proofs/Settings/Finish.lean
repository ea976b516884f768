import Mathlib.Data.Char
import Mathlib.Data.List.Lex
import Mathlib.Data.List.Nodup
import TunnelConf.Settings.Layer

/-!
# Settings in effect, or problems

What `Layer.finish` answers for a layer in which no slug has two entries: the settings just if the level and all
entries are valid (`finish_eq_ok_iff`), else the problems of the level and of the entries (`finish_eq_error_iff`).
The entries are taken in the order of their slugs, so the order in which they stand does not count
(`Alike.finish_eq`).
-/

namespace TunnelConf

open Text

/-! ### Names -/

/-- What has a given name is found among all, if no two have the same. -/
theorem find?_name_eq_some_iff {α : Type} {all : List α} {name : α → Text} (hall : ∀ x, x ∈ all)
    (hinj : ∀ x ∈ all, ∀ y ∈ all, name x = name y → x = y) {t : Text} {x : α} :
    all.find? (fun y => name y == t) = some x ↔ name x = t := by
  constructor
  · intro h
    simpa using List.find?_some h
  · rintro rfl
    cases hfind : all.find? fun y => name y == name x with
    | none => exact absurd (List.find?_eq_none.1 hfind x (hall x)) (by simp)
    | some y =>
      have hname : name y = name x := by simpa using List.find?_some hfind
      rw [hinj y (hall y) x (hall x) hname]

theorem LogLevel.ofName?_eq_some_iff {t : Text} {l : LogLevel} : ofName? t = some l ↔ l.name = t :=
  find?_name_eq_some_iff (fun l => by cases l <;> decide) (by decide)

theorem Severity.ofName?_eq_some_iff {t : Text} {s : Severity} : ofName? t = some s ↔ s.name = t :=
  find?_name_eq_some_iff (fun s => by cases s <;> decide) (by decide)

theorem Finding.ofSlug?_eq_some_iff {t : Text} {f : Finding} : ofSlug? t = some f ↔ f.slug = t :=
  find?_name_eq_some_iff (fun f => by cases f <;> decide) (by decide)

theorem Finding.slug_inj {f g : Finding} : f.slug = g.slug ↔ f = g := by
  rw [← ofSlug?_eq_some_iff, ofSlug?_eq_some_iff.2 rfl, Option.some_inj, eq_comm]

/-! ### The order of entries -/

theorem Text.ble_iff_le {s t : Text} : ble s t = true ↔ s ≤ t := by
  rw [← not_lt]
  induction s generalizing t with
  | nil => simp [ble]
  | cons a s ih =>
    cases t with
    | nil => simp [ble]
    | cons b t =>
      rw [List.cons_lt_cons_iff, not_or, not_lt, not_and, le_iff_lt_or_eq]
      simp only [ble, Bool.or_eq_true, Bool.and_eq_true, decide_eq_true_eq, beq_iff_eq, ih]
      constructor
      · rintro (hab | ⟨rfl, h⟩)
        · exact ⟨.inl hab, fun hba => absurd hba hab.ne'⟩
        · exact ⟨.inr rfl, fun _ => h⟩
      · rintro ⟨hab | rfl, h⟩
        · exact .inl hab
        · exact .inr ⟨rfl, h rfl⟩

namespace Layer

/-- No slug has two entries. -/
def Distinct (l : Layer) : Prop := (l.severity.map Prod.fst).Nodup

/-- Layers that say the same and name the same sources. The order of their entries does not count. -/
structure Alike (l l' : Layer) : Prop where
  backup : l.backup = l'.backup
  level : l.level = l'.level
  severity : l.severity.Perm l'.severity

variable {l l' : Layer} {e : Text × Sourced Text} {v : Sourced Text} {p : Sourced Problem} {ps : List (Sourced Problem)}
  {s : Settings}

theorem Alike.distinct (h : l.Alike l') (hd : l'.Distinct) : l.Distinct := ((h.severity.map _).nodup_iff).2 hd

theorem entries_perm (l : Layer) : l.entries.Perm l.severity := List.mergeSort_perm _ _

theorem pairwise_entries (h : l.Distinct) : l.entries.Pairwise fun a b => a.1 < b.1 := by
  have hsorted : l.entries.Pairwise fun a b => ble a.1 b.1 = true := by
    refine List.pairwise_mergeSort (fun a b c => ?_) (fun a b => ?_) _
    · simp only [ble_iff_le]
      exact le_trans
    · simp only [Bool.or_eq_true, ble_iff_le]
      exact le_total _ _
  -- Sorting alone would leave entries with the same slug side by side.
  have hne : l.entries.Pairwise fun a b => a.1 ≠ b.1 :=
    List.pairwise_map.1 (((l.entries_perm.map Prod.fst).nodup_iff).2 h)
  exact (hsorted.and hne).imp fun hab => lt_of_le_of_ne (ble_iff_le.1 hab.1) hab.2

theorem Alike.entries_eq (h : l.Alike l') (hd : l'.Distinct) : l.entries = l'.entries :=
  (l.entries_perm.trans (h.severity.trans l'.entries_perm.symm)).eq_of_pairwise
    (fun _ _ _ _ hab hba => absurd hba hab.asymm) (pairwise_entries (h.distinct hd)) (pairwise_entries hd)

theorem Alike.finish_eq (h : l.Alike l') (hd : l'.Distinct) : l.finish = l'.finish := by
  rw [finish, finish, effectiveLevel, effectiveLevel, h.backup, h.level, h.entries_eq hd]

/-! ### One value -/

theorem checkLevel_eq_ok_iff {level : LogLevel} : checkLevel v = .ok level ↔ level.name = lower (trim v.value) := by
  rw [checkLevel, levelOf?, ← LogLevel.ofName?_eq_some_iff]
  cases LogLevel.ofName? (lower (trim v.value)) <;> simp

/-- Trimmed and in lower case it is no level. -/
def UnknownLevel (v : Sourced Text) : Prop := ∀ level : LogLevel, level.name ≠ lower (trim v.value)

theorem problem?_checkLevel_eq_some_iff :
    problem? (checkLevel v) = some p ↔ UnknownLevel v ∧ p = ⟨.unknownLevel v.value, v.source⟩ := by
  rw [checkLevel]
  cases hlevel : levelOf? v.value with
  | none =>
    have hno : UnknownLevel v := fun level hname => by
      rw [levelOf?, LogLevel.ofName?_eq_some_iff.2 hname] at hlevel
      cases hlevel
    simp [problem?, hno, eq_comm]
  | some level =>
    have hyes : ¬ UnknownLevel v := fun h => h level (LogLevel.ofName?_eq_some_iff.1 hlevel)
    simp [problem?, hyes]

/-- The value `v` of a slug has the problem `p`. If the slug is not known, the value does not count. -/
inductive Offends (slug : Text) (v : Sourced Text) : Sourced Problem → Prop
  | unknownFinding (h : ∀ f : Finding, f.slug ≠ slug) : Offends slug v ⟨.unknownFinding slug, v.source⟩
  | invalidSeverity {f : Finding} (hf : f.slug = slug) (h : ∀ s : Severity, s.name ≠ v.value) :
    Offends slug v ⟨.invalidSeverity v.value f, v.source⟩

theorem checkEntry_eq_ok_iff {f : Finding} {severity : Severity} :
    checkEntry e = .ok (f, severity) ↔ f.slug = e.1 ∧ severity.name = e.2.value := by
  rw [checkEntry, ← Finding.ofSlug?_eq_some_iff, ← Severity.ofName?_eq_some_iff]
  cases Finding.ofSlug? e.1 <;> cases Severity.ofName? e.2.value <;> simp

theorem toOption_checkEntry_eq_some_iff {f : Finding} {severity : Severity} :
    (checkEntry e).toOption = some (f, severity) ↔ f.slug = e.1 ∧ severity.name = e.2.value := by
  rw [← checkEntry_eq_ok_iff]
  cases checkEntry e <;> simp [Except.toOption]

theorem problem?_checkEntry_eq_some_iff : problem? (checkEntry e) = some p ↔ Offends e.1 e.2 p := by
  rw [checkEntry]
  cases hslug : Finding.ofSlug? e.1 with
  | none =>
    have hno : ∀ f : Finding, f.slug ≠ e.1 := fun f hf => by
      rw [Finding.ofSlug?_eq_some_iff.2 hf] at hslug
      cases hslug
    constructor
    · intro h
      obtain rfl := Option.some.inj h
      exact .unknownFinding hno
    · rintro (- | ⟨hf, -⟩)
      · rfl
      · exact absurd hf (hno _)
  | some f =>
    have hf := Finding.ofSlug?_eq_some_iff.1 hslug
    cases hname : Severity.ofName? e.2.value with
    | none =>
      have hno : ∀ s : Severity, s.name ≠ e.2.value := fun s hs => by
        rw [Severity.ofName?_eq_some_iff.2 hs] at hname
        cases hname
      constructor
      · intro h
        obtain rfl := Option.some.inj h
        exact .invalidSeverity hf hno
      · rintro (h | ⟨hg, -⟩)
        · exact absurd hf (h f)
        · obtain rfl := Finding.slug_inj.1 (hf.trans hg.symm)
          rfl
    | some s =>
      constructor
      · intro h
        cases h
      · rintro (h | ⟨-, h⟩)
        · exact absurd hf (h f)
        · exact absurd (Severity.ofName?_eq_some_iff.1 hname) (h s)

theorem exists_offends_iff {slug : Text} : (∃ p, Offends slug v p) ↔
    (∀ f : Finding, f.slug ≠ slug) ∨ ∀ severity : Severity, severity.name ≠ v.value := by
  constructor
  · rintro ⟨p, h | ⟨-, h⟩⟩
    · exact .inl h
    · exact .inr h
  · intro h
    by_cases hslug : ∀ f : Finding, f.slug ≠ slug
    · exact ⟨_, .unknownFinding hslug⟩
    · push Not at hslug
      obtain ⟨f, hf⟩ := hslug
      exact ⟨_, .invalidSeverity hf (h.resolve_left fun hno => hno f hf)⟩

/-! ### All values -/

/-- The problem of the level, if it has one, and those of the entries. -/
def problems (l : Layer) : List (Sourced Problem) :=
  (problem? (checkLevel l.effectiveLevel)).toList ++ (l.entries.map checkEntry).filterMap problem?

theorem finish_eq_error_iff : l.finish = .error ps ↔ l.problems = ps ∧ ps ≠ [] := by
  rw [finish, ← problems]
  split
  · next level hnone hlevel => simp [hnone, eq_comm]
  · next hno =>
    have hne : l.problems ≠ [] := fun hnone => by
      cases hlevel : checkLevel l.effectiveLevel with
      | ok level => exact hno level hnone hlevel
      | error q => simp [problems, hlevel, problem?] at hnone
    constructor
    · intro h
      obtain rfl := Except.error.inj h
      exact ⟨rfl, hne⟩
    · rintro ⟨rfl, -⟩
      rfl

theorem finish_eq_ok_iff : l.finish = .ok s ↔ l.problems = [] ∧
    s.backup = l.backup.elim true Sourced.value ∧ s.level.name = lower (trim l.effectiveLevel.value) ∧
    s.severity = (l.entries.map checkEntry).filterMap Except.toOption := by
  rw [finish, ← problems]
  split
  · next level hnone hlevel =>
    rw [hnone, ← checkLevel_eq_ok_iff, hlevel]
    cases s
    simp [eq_comm]
  · next hno =>
    constructor
    · intro h
      cases h
    · rintro ⟨hnone, -, hlevel, -⟩
      exact absurd (checkLevel_eq_ok_iff.2 hlevel) (hno s.level hnone)

theorem mem_problems_iff : p ∈ l.problems ↔
    (UnknownLevel l.effectiveLevel ∧ p = ⟨.unknownLevel l.effectiveLevel.value, l.effectiveLevel.source⟩) ∨
      ∃ e ∈ l.severity, Offends e.1 e.2 p := by
  rw [problems, List.mem_append, Option.mem_toList, problem?_checkLevel_eq_some_iff, List.filterMap_map,
    List.mem_filterMap]
  refine or_congr_right (exists_congr fun e => and_congr l.entries_perm.mem_iff ?_)
  exact problem?_checkEntry_eq_some_iff

/-- The severities are those of the entries, all of them. -/
theorem severity_iff (h : l.finish = .ok s) {slug value : Text} :
    (∃ f severity, (f, severity) ∈ s.severity ∧ f.slug = slug ∧ severity.name = value) ↔
      ∃ v, (slug, v) ∈ l.severity ∧ v.value = value := by
  obtain ⟨hnone, -, -, hseverity⟩ := finish_eq_ok_iff.1 h
  simp only [hseverity, List.filterMap_map, List.mem_filterMap, l.entries_perm.mem_iff]
  constructor
  · rintro ⟨f, severity, ⟨⟨slug', v⟩, he, hx⟩, rfl, rfl⟩
    obtain ⟨rfl, hname⟩ := toOption_checkEntry_eq_some_iff.1 hx
    exact ⟨v, he, hname.symm⟩
  · rintro ⟨v, he, rfl⟩
    have hvalid : ¬ ∃ p, Offends slug v p := fun ⟨p, hp⟩ => by
      have hmem := mem_problems_iff.2 (.inr ⟨(slug, v), he, hp⟩)
      rw [hnone] at hmem
      cases hmem
    rw [exists_offends_iff] at hvalid
    push Not at hvalid
    obtain ⟨⟨f, hf⟩, severity, hname⟩ := hvalid
    exact ⟨f, severity, ⟨_, he, toOption_checkEntry_eq_some_iff.2 ⟨hf, hname⟩⟩, hf, hname⟩

/-- No finding has two severities. -/
theorem nodup_severity (h : l.finish = .ok s) (hd : l.Distinct) : (s.severity.map Prod.fst).Nodup := by
  rw [(finish_eq_ok_iff.1 h).2.2.2, List.filterMap_map, List.Nodup, List.pairwise_map]
  refine (pairwise_entries hd).filterMap _ fun a b hlt x hx y hy hxy => ?_
  obtain ⟨hxslug, -⟩ := toOption_checkEntry_eq_some_iff.1 hx
  obtain ⟨hyslug, -⟩ := toOption_checkEntry_eq_some_iff.1 hy
  rw [← hxslug, ← hyslug, hxy] at hlt
  exact lt_irrefl _ hlt

end Layer

end TunnelConf
