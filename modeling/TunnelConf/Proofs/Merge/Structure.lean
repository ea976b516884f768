import TunnelConf.Proofs.Document.Edited
import TunnelConf.Proofs.Merge.Values

/-!
# What merging does to the sections of a file

The reader of sections takes the name of a line up to the first equals sign, wherever that stands, so it may
see another key in a line than merging does, or none (`KeyLine.seen?`). Adding a value to the line makes one
entry of it or of what was there (`KeyLine.Regroups`). Main statement: `mergeInsert_keeps_sections`, nothing
else happens to the sections.
-/

namespace TunnelConf

open Text Line Section

/-! ### What the reader sees in a line of a key -/

namespace KeyName

variable {key : KeyName} {name : Text}

theorem Spells.isSpace_and_ne (h : Spells key.text name) : ∀ c ∈ name, isSpace c = false ∧ c ≠ '=' := by
  intro c hc
  rcases h.isAlphanumeric_or hc with ha | rfl | rfl
  · refine ⟨isSpace_of_isAlphanumeric ha, ?_⟩
    rintro rfl
    exact absurd ha (by decide)
  · decide
  · decide

theorem Spells.trimmed (h : Spells key.text name) : Trimmed name :=
  ⟨fun c hc => (h.isSpace_and_ne c (List.mem_of_mem_head? hc)).1,
    fun c hc => (h.isSpace_and_ne c (List.mem_of_getLast? hc)).1⟩

/-- What begins with the name is no comment and no header. -/
theorem Spells.head?_trim (h : Spells key.text name) (t : Text) :
    ∀ c ∈ (trim (name ++ t)).head?, c ≠ '#' ∧ c ≠ ';' ∧ c ≠ '[' := by
  obtain ⟨c, name, rfl, -, hmarker, hbracket⟩ := KeyLine.exists_cons_of_spells h
  have hc := (h.isSpace_and_ne c (List.mem_cons_self ..)).1
  have hhead : (trim (c :: name ++ t)).head? = some c := head?_trim_append_cons hc [] (name ++ t)
  rw [hhead]
  rintro _ ⟨⟩
  refine ⟨?_, ?_, hbracket⟩
  · rintro rfl; exact absurd hmarker (by decide)
  · rintro rfl; exact absurd hmarker (by decide)

end KeyName

namespace KeyLine

variable {key : KeyName} {t value lead name : Text} {before after : List Line} {k : KeyLine} {e : Ending}

theorem ofLine?_of_not_mem (hlead : ∀ c ∈ lead, isBlank c = true) (hn : KeyName.Spells key.text name) {u : Text}
    (hu : '=' ∉ u) : Statement.ofLine? (lead ++ (name ++ u)) = none := by
  have ht : trim (lead ++ (name ++ u)) = trim (name ++ u) := trim_append_of_all (isSpace_of_blanks hlead)
  refine Statement.ofLine?_eq_none_of_trim (fun hmem => ?_) fun c hc => ?_
  · rw [ht] at hmem
    rcases List.mem_append.1 (mem_of_mem_trim hmem) with hmem | hmem
    · exact (hn.isSpace_and_ne _ hmem).2 rfl
    · exact hu hmem
  · rw [ht] at hc
    exact (hn.head?_trim u c hc).2.2

theorem ofLine?_of_equals (hlead : ∀ c ∈ lead, isBlank c = true) (hn : KeyName.Spells key.text name) {u : Text}
    (hu : '=' ∉ u) (v : Text) : Statement.ofLine? (lead ++ (name ++ (u ++ '=' :: v))) =
      some (.entry (trim (name ++ u)) (trim v)) := by
  have ht : trim (lead ++ (name ++ u)) = trim (name ++ u) := trim_append_of_all (isSpace_of_blanks hlead)
  have hhead := hn.head?_trim u
  refine Statement.ofLine?_eq_some_iff.2 (says_entry_iff.2
    ⟨lead ++ (name ++ u), v, by simp, ?_, ht, rfl, fun c hc => ?_, fun hc => ?_⟩)
  · simp only [List.mem_append, not_or]
    exact ⟨fun hmem => absurd (hlead _ hmem) (by decide), fun hmem => (hn.isSpace_and_ne _ hmem).2 rfl, hu⟩
  · exact ⟨(hhead c hc).1, (hhead c hc).2.1⟩
  · exact absurd rfl (hhead '[' hc).2.2

theorem not_mem_of_blanks {u : Text} (h : ∀ c ∈ u, isBlank c = true) : '=' ∉ u := fun hmem =>
  absurd (h _ hmem) (by decide)

/-- The key and the value that the reader of sections sees in the line. Behind a name without an equals sign
it goes on to the next one. -/
def seen? : KeyLine → Option (Text × Text)
  | .bare .. => none
  | .assigned _ name _ value => some (name, trim value)
  | .loose _ name gap value => (splitFirst? '=' value).map fun p => (trim (name ++ (gap ++ p.1)), trim p.2)

theorem ofLine?_render (h : k.Fits key.text) :
    Statement.ofLine? k.render = k.seen?.map fun e => .entry e.1 e.2 := by
  cases k with
  | bare lead name gap =>
    exact ofLine?_of_not_mem h.lead h.spells (by simpa [rest] using not_mem_of_blanks h.gap)
  | assigned lead name gap old =>
    have hname : KeyName.Spells key.text name := h.spells
    have hgap : ∀ c ∈ gap, isBlank c = true := h.gap
    have hkey : trim (name ++ gap) = name := by
      rw [trim_append_right_of_all (isSpace_of_blanks hgap), trim_eq_self_iff.2 hname.trimmed]
    have hentry := ofLine?_of_equals h.lead hname (not_mem_of_blanks hgap) old
    rw [hkey] at hentry
    exact hentry
  | loose lead name gap old =>
    have hname : KeyName.Spells key.text name := h.spells
    have hgap : '=' ∉ gap := not_mem_of_blanks h.gap
    rw [seen?]
    cases hs : splitFirst? '=' old with
    | none =>
      refine ofLine?_of_not_mem h.lead hname fun hmem => ?_
      exact (List.mem_append.1 hmem).elim hgap (splitFirst?_eq_none_iff.1 hs)
    | some p =>
      obtain ⟨hold, hp⟩ := splitFirst?_eq_some_iff.1 hs
      have hu : '=' ∉ gap ++ p.1 := fun hmem => (List.mem_append.1 hmem).elim hgap hp
      have hentry := ofLine?_of_equals h.lead hname hu p.2
      rw [List.append_assoc gap, ← hold] at hentry
      exact hentry

/-- The values that are there and the new one are an entry of the key. -/
theorem seen?_added (k : KeyLine) (hv : ValueSource.OneLine value) :
    (k.added value).seen? = some (k.name, k.gather value) := by
  have hw := written_added k hv
  obtain ⟨gap, ha, -⟩ := added_eq k value
  have hvalue : trim (' ' :: k.gather value) = k.gather value := by
    rw [trim_cons_of_isSpace (by decide), trim_eq_self_iff.2 hw.trimmed]
  rw [ha, seen?, hvalue]

/-! ### What adding a value does to a section -/

/-- The entries of a section before and after a value is added to one of its lines. A line in which no entry
is seen gives one more, and otherwise its entry becomes the one of the key. -/
def Regroups (value : Text) (k : KeyLine) : List Entry → List Entry → Prop :=
  match k.seen? with
  | none => Gains k.name (k.gather value)
  | some (other, old) =>
    if other = k.name then Changes k.name old (k.gather value) else Replaces other old k.name (k.gather value)

theorem stable_regroups (value : Text) (k : KeyLine) : Stable (k.Regroups value) := by
  unfold Regroups
  split
  · exact stable_gains _ _
  · split
    · exact stable_inPlace _ _ _
    · exact stable_replaces _ _ _ _

theorem regroups_pushValue (value : Text) (k : KeyLine) (es : List Entry) :
    k.Regroups value (k.seen?.elim es fun e => pushValue e.1 e.2 es) (pushValue k.name (k.gather value) es) := by
  unfold Regroups
  cases k.seen? with
  | none => exact .inl (adds_pushValue _ _ es)
  | some p =>
    obtain ⟨other, old⟩ := p
    dsimp only [Option.elim_some]
    split
    · next hother =>
      subst hother
      exact changes_pushValue _ old _ es
    · exact ⟨es, .inl (adds_pushValue other old es), .inl (adds_pushValue _ _ es)⟩

theorem FirstLine.noLoneCr (h : FirstLine key t before k e after) (hv : IsBody value) (hcr : NoLoneCr t) :
    NoLoneCr (result before k e after value) := by
  rw [noLoneCr_iff, h.lines] at hcr
  rw [noLoneCr_iff, h.ofVisual_edited hv]
  simpa using hcr

/-- The lines around that of the key say what they said. -/
theorem FirstLine.sections (h : FirstLine key t before k e after) (hcr : NoLoneCr t)
    (hv : ValueSource.OneLine value) : Document.SameButOne (k.Regroups value) (Document.parse t).sections
      (Document.parse (result before k e after value)).sections := by
  have hadded : Statement.ofLine? (k.added value).render = some (.entry k.name (k.gather value)) := by
    rw [ofLine?_render (h.fits.added value), seen?_added k hv]
    rfl
  have hsections := Document.sameButOne_of_entry (stable_regroups value k)
    (before.filterMap fun l => Statement.ofLine? l.body) (after.filterMap fun l => Statement.ofLine? l.body)
    (regroups_pushValue value k)
  rw [Document.parse_eq, Document.parse_eq, ofPhysical_eq_ofVisual hcr,
    ofPhysical_eq_ofVisual (h.noLoneCr hv.body hcr), h.lines, h.ofVisual_edited hv.body, List.filterMap_append,
    List.filterMap_append, List.filterMap_cons, List.filterMap_cons, hadded, ofLine?_render h.fits]
  rw [List.append_assoc, List.append_assoc] at hsections
  cases hseen : k.seen? with
  | none =>
    rw [hseen] at hsections
    exact hsections
  | some p =>
    rw [hseen] at hsections
    exact hsections

end KeyLine

/-- A key without a line gets one at the end. -/
theorem sections_appended (key : KeyName) (t : Text) {value : Text} (hv : ValueSource.OneLine value) :
    Document.SameButOne (Adds key.text value) (Document.parse t).sections
      (Document.parse (t ++ '\n' :: (KeyLine.fresh key value).render)).sections := by
  have hfresh : Statement.ofLine? (KeyLine.fresh key value).render = some (.entry key.text value) := by
    rw [KeyLine.ofLine?_render (KeyLine.fits_fresh key value), KeyLine.fresh_eq_added, KeyLine.seen?_added _ hv]
    rfl
  have hlf : '\n' ∉ (KeyLine.fresh key value).render := (KeyLine.isBody_fresh key hv.body).lf_not_mem
  rw [Document.parse_eq_statements, Document.parse_eq_statements, Document.statements_append_lf,
    Document.statements_of_not_mem hlf, hfresh]
  exact Document.sameButOne_concat _ key.text value

/-! ### Main statement -/

/-- Merging a value changes the entries of one section at most. A key without a line gets a value, and a line of
the key becomes one entry, of the key and of all values that stand on it. -/
theorem mergeInsert_keeps_sections (t : Text) (key : KeyName) (value : Text) (hcr : NoLoneCr t)
    (hv : ValueSource.OneLine value) (ha : ∀ n k, KeyLine.find? key.text t = some (n, k) → Ascii k.name) :
    ∃ t', (mergeInsert t key value).apply t = .ok t' ∧
      match KeyLine.find? key.text t with
      | none => Document.SameButOne (Adds key.text value) (Document.parse t).sections (Document.parse t').sections
      | some (_, k) => lower k.name = lower key.text ∧
          Document.SameButOne (k.Regroups value) (Document.parse t).sections (Document.parse t').sections := by
  cases hf : KeyLine.find? key.text t with
  | none => exact ⟨_, KeyLine.apply_of_find?_eq_none hf value, sections_appended key t hv⟩
  | some p =>
    obtain ⟨n, k⟩ := p
    obtain ⟨before, e, after, hline, -⟩ := KeyLine.exists_firstLine hf
    exact ⟨_, hline.apply value, KeyName.spells_and_ascii_iff.1 ⟨hline.fits.spells, ha n k hf⟩,
      hline.sections hcr hv⟩

/-- The reader sees a longer key in the line, and the key has another value further down. -/
theorem mergeInsert_keeps_sections_longer_key :
    let t := "[a]\nMTU = 1\r\n dns x = 9.9.9.9,\nDNS = 2\n".toList
    ∃ t', (mergeInsert t ⟨"DNS".toList, by decide, by decide⟩ "1.1.1.1".toList).apply t = .ok t' ∧
      Document.SameButOne
        (Replaces "dns x".toList "9.9.9.9,".toList "dns".toList "x = 9.9.9.9,1.1.1.1".toList)
        (Document.parse t).sections (Document.parse t').sections := by
  intro t
  have hcr : NoLoneCr t := by decide +kernel
  have hf : KeyLine.find? "DNS".toList t =
      some (13, .loose [' '] "dns".toList [' '] "x = 9.9.9.9,".toList) := by decide
  obtain ⟨t', happly, h⟩ := mergeInsert_keeps_sections t ⟨"DNS".toList, by decide, by decide⟩ "1.1.1.1".toList hcr
    ⟨by decide, by decide, by simp [IsBody]⟩ fun n k hk => by
      obtain ⟨-, rfl⟩ := Prod.mk.inj (Option.some.inj (hf.symm.trans hk))
      simp [Ascii, KeyLine.name]
  rw [hf] at h
  exact ⟨t', happly, h.2⟩

/-! ### Lines without an equals sign behind the key -/

/-- The sections are the same, but for one value of the key. -/
def KeepsSections (t : Text) (key : KeyName) (value : Text) : Prop :=
  ∃ t', (mergeInsert t key value).apply t = .ok t' ∧
    Document.SameButOne (OneValue key.text) (Document.parse t).sections (Document.parse t').sections

/-- An entry of a longer key is taken over by the value of a line, and a key that has its first value now moves
up to the line. -/
theorem not_keepsSections_no_equals :
    let value := "1.1.1.1".toList
    let longer := "[Peer]\nDNS foo = bar\n".toList
    let moved := "[Peer]\nDNS\nMTU = 1\nDNS = 9.9.9.9\n".toList
    ValueSource.OneLine value ∧
    (NoLoneCr longer ∧ ¬ KeepsSections longer ⟨"DNS".toList, by decide, by decide⟩ value) ∧
    NoLoneCr moved ∧ ¬ KeepsSections moved ⟨"DNS".toList, by decide, by decide⟩ value := by
  intro value longer moved
  refine ⟨⟨by decide, by decide, by simp [value, IsBody]⟩, ⟨by decide +kernel, ?_⟩, by decide +kernel, ?_⟩
  · rintro ⟨t', happly, h⟩
    have hlonger : (mergeInsert longer ⟨"DNS".toList, by decide, by decide⟩ value).apply longer =
      .ok "[Peer]\nDNS = foo = bar,1.1.1.1\n".toList := by decide
    obtain rfl := Except.ok.inj (hlonger.symm.trans happly)
    exact absurd h.forall₂_keys (by decide)
  · rintro ⟨t', happly, h⟩
    have hmoved : (mergeInsert moved ⟨"DNS".toList, by decide, by decide⟩ value).apply moved =
      .ok "[Peer]\nDNS = 1.1.1.1\nMTU = 1\nDNS = 9.9.9.9\n".toList := by decide
    obtain rfl := Except.ok.inj (hmoved.symm.trans happly)
    exact absurd h.forall₂_keys (by decide)

end TunnelConf
