import TunnelConf.Edit.File
import TunnelConf.Proofs.Merge.Frame
import TunnelConf.Proofs.Merge.Values

/-!
# Findings of an edit

An edit reports the errors that touch what it wrote. All other errors were there before, at their
place or at the place that the edit has moved them from, unless the edit makes the first pair of an
unknown key out of a line without an equals sign (`KeyLine.GainsUnknownPair`). The error on that key
is new, but it stands in front of what was written.
-/

namespace TunnelConf

open Text Line

/-! ### Errors before and after -/

/-- The error `a` of `t'` was there before the splice: `t` has an error with the same finding on the
same piece of text, at the same place in front of the splice or further on behind it. -/
def WasThere (t t' : Text) (s : Splice) (r : RandomStream) (a : Annotation) : Prop :=
  ∃ b ∈ (Scan.ofText t r).1.errors, b.finding = a.finding ∧
    (∃ u, b.covered? t = some u ∧ a.covered? t' = some u) ∧
    ((a.span.stop ≤ s.start ∧ b.span.start = a.span.start) ∨
      (s.start + size s.replacement ≤ a.span.start ∧
        (a.span.start : Int) = b.span.start + ((size t' : Int) - size t)))

/-- Every error of the outcome is one that it reports or was there before. -/
def Outcome.Accounts (o : Outcome) (t : Text) : Prop :=
  ∃ s, o.splice = some s ∧ ∀ r, ∀ a ∈ o.scan.errors, a ∉ o.introducedErrors → WasThere t o.result s r a

theorem Scan.mem_errors_ofText {t : Text} {r : RandomStream} {a : Annotation} :
    a ∈ (ofText t r).1.errors ↔ a ∈ (scanLines t).flatMap annotate ∧ a.severity = .error := by
  rw [Scan.errors, List.mem_filter, annotations_ofText, Annotation.isError, beq_iff_eq]

theorem exists_of_mem_of_forall₂ {α β : Type} {p : α → β → Prop} {as : List α} {bs : List β} {b : β}
    (h : List.Forall₂ p as bs) (hb : b ∈ bs) : ∃ a ∈ as, p a b := by
  induction h with
  | nil => cases hb
  | cons hp _ ih =>
    rcases List.mem_cons.1 hb with rfl | hb
    · exact ⟨_, List.mem_cons_self .., hp⟩
    · obtain ⟨a, ha, hp⟩ := ih hb
      exact ⟨a, List.mem_cons_of_mem _ ha, hp⟩

section Elsewhere

variable {t t' : Text} {n : Nat} {before after after' : List LineMatch} {old new : Option LineMatch}
  {s : Splice} {a : Annotation}

theorem SameElsewhere.wasThere_of_mem_before (h : SameElsewhere t t' n before old new after after')
    (ha : a ∈ before.flatMap Scan.annotate) (he : a.severity = .error) (hs : a.span.stop ≤ s.start)
    (r : RandomStream) : WasThere t t' s r a := by
  have hk := List.forall₂_same.1 h.kept_before a ha
  refine ⟨a, Scan.mem_errors_ofText.2 ⟨?_, he⟩, rfl, hk.covered, .inl ⟨hs, rfl⟩⟩
  rw [h.original, List.flatMap_append, List.flatMap_append, List.append_assoc]
  exact List.mem_append_left _ ha

theorem SameElsewhere.wasThere_of_mem_after (h : SameElsewhere t t' n before old new after after')
    (ha : a ∈ after'.flatMap Scan.annotate) (he : a.severity = .error)
    (hs : s.start + size s.replacement ≤ a.span.start) (r : RandomStream) : WasThere t t' s r a := by
  obtain ⟨b, hb, hk⟩ := exists_of_mem_of_forall₂ h.kept_after ha
  refine ⟨b, Scan.mem_errors_ofText.2 ⟨?_, hk.severity ▸ he⟩, hk.finding.symm, hk.covered,
    .inr ⟨hs, hk.start⟩⟩
  rw [h.original, List.flatMap_append, List.flatMap_append]
  exact List.mem_append_right _ hb

end Elsewhere

/-! ### What a splice touches -/

namespace Outcome

variable {s : Splice} {u : Span}

theorem touches_of_start (h : s.start ≤ u.start) (hu : u.start < s.start + size s.replacement) :
    touches s u = true := by
  simp [touches, h, hu]

theorem touches_eq_false_of_stop_le (h : u.stop ≤ s.start) (hu : 0 < u.len) : touches s u = false := by
  have h₁ : ¬ s.start ≤ u.start := by simp only [Span.stop] at h; omega
  have h₂ : ¬ s.start < u.stop := by omega
  simp [touches, h₁, h₂]

end Outcome

/-- What is on the value of a pair stands between the equals sign and the end of the line. -/
theorem Scan.OnValue.bounds {n : Nat} {p : Pair} {a : Annotation} (h : OnValue n p a) :
    n + size p.lead + size p.name + size p.gap + 1 ≤ a.span.start ∧ a.span.stop ≤ n + size p.render ∧
      (p.valueText ≠ [] → 0 < a.span.len) := by
  obtain ⟨s, i, u, hs, hu, hstart, hlen, hne⟩ := h
  obtain ⟨b, hb, rfl⟩ := Option.map_eq_some_iff.1 hs
  have hv : p.valueText = b.value := by simp [Pair.valueText, hb]
  have hle := (size_of_slice? hu).2
  have he : ('=' : Char).utf8Size = 1 := rfl
  have hr : size p.render =
      size p.lead + size p.name + size p.gap + 1 + size b.after + size b.value + size b.trail := by
    simp only [Pair.render, hb, Option.elim_some, Assignment.render, List.cons_append, size_append,
      size_cons, he]
    omega
  rw [hv] at hle
  simp only [Pair.keySpan, Span.stop] at hstart ⊢
  refine ⟨by omega, by omega, fun hne' => ?_⟩
  rw [hlen]; exact size_pos_iff.2 (hne hne')

theorem Scan.len_annotateKey_pos {n : Nat} {p : Pair} (h : p.name ≠ []) :
    0 < (annotateKey n p).span.len := by
  rw [span_annotateKey]; exact size_pos_iff.2 h

theorem Scan.bounds_of_mem_annotatePair {n : Nat} {p : Pair} {a : Annotation} (ha : a ∈ annotatePair n p)
    (hname : p.name ≠ []) (hvalue : p.valueText ≠ []) :
    n ≤ a.span.start ∧ a.span.stop ≤ n + size p.render ∧ 0 < a.span.len := by
  rcases eq_or_onValue_of_mem_annotatePair ha with rfl | hon
  · have hpos := len_annotateKey_pos (n := n) hname
    rw [span_annotateKey] at hpos ⊢
    simp only [Pair.keySpan, Span.stop, Pair.render, size_append] at hpos ⊢
    omega
  · obtain ⟨hstart, hstop, hlen⟩ := hon.bounds
    exact ⟨by omega, hstop, hlen hvalue⟩

namespace KeyLine

variable {key : KeyName} {t value : Text} {before after : List Line} {k : KeyLine} {e : Ending}
  {a : Annotation} {r : RandomStream}

/-! ### The line with the value -/

/-- The pair that the scanner reads on the line of a key with a value added. -/
def addedPair (k : KeyLine) (value : Text) : Pair :=
  ⟨k.lead, k.name, (k.added value).gap, some ⟨[' '], k.gather value, []⟩⟩

theorem ofBody?_added (h : k.Fits key.text) (hv : ValueSource.OneLine value) (ha : Ascii k.name) :
    LineForm.ofBody? (k.added value).render = some (.pair (k.addedPair value)) := by
  rw [ofBody?_render_of_ascii (h.added value) (by rwa [name_added]), (written_added k hv).form?,
    lead_added, name_added]
  rfl

theorem start_add_le (k : KeyLine) (value : Text) (n : Nat) :
    (k.add value n).start ≤ n + size k.lead + size k.name + size (k.added value).gap + 1 := by
  cases k with
  | bare lead name gap =>
    simp only [add, Splice.replace, KeyLine.lead, KeyLine.name]; omega
  | assigned lead name gap old =>
    simp only [add, Splice.replace, KeyLine.lead, KeyLine.name, added, KeyLine.gap]; omega
  | loose lead name gap old =>
    simp only [add, Splice.replace, KeyLine.lead, KeyLine.name, added, KeyLine.gap]; omega

/-- What is on the value of the line was written with it, at least in part. -/
theorem touches_of_onValue (h : k.Fits key.text) (hv : ValueSource.OneLine value) (ha : Ascii k.name)
    {n : Nat} (hon : Scan.OnValue n (k.addedPair value) a) :
    Outcome.touches (k.add value n) a.span = true := by
  obtain ⟨hstart, hstop, hlen⟩ := hon.bounds
  have hr : (k.addedPair value).render = (k.added value).render :=
    LineForm.render_of_ofBody? (ofBody?_added h hv ha)
  have hpos := hlen (written_added k hv).nonempty
  have hle := start_add_le k value n
  have hend := start_add_size_add k value n
  rw [hr] at hstop
  simp only [Span.stop] at hstop
  refine Outcome.touches_of_start (Nat.le_trans hle hstart) ?_
  omega

theorem stop_annotateKey_le (k : KeyLine) (value : Text) (n : Nat) :
    (Scan.annotateKey n (k.addedPair value)).span.stop ≤ (k.add value n).start := by
  rw [Scan.span_annotateKey]
  exact le_start_add k value n

theorem not_touches_annotateKey (h : k.Fits key.text) (value : Text) (n : Nat) :
    Outcome.touches (k.add value n) (Scan.annotateKey n (k.addedPair value)).span = false :=
  Outcome.touches_eq_false_of_stop_le (stop_annotateKey_le k value n)
    (Scan.len_annotateKey_pos h.spells.ne_nil)

theorem covered?_annotateKey (pre post : Text) (value : Text) (j : KeyLine) (hl : j.lead = k.lead)
    (hn : j.name = k.name) :
    (Scan.annotateKey (size pre) (k.addedPair value)).covered? (pre ++ j.render ++ post) = some k.name := by
  have := slice?_append (pre ++ k.lead) k.name (j.gap ++ j.rest ++ post)
  unfold Annotation.covered?
  rw [Scan.span_annotateKey, render, hl, hn]
  simpa [Pair.keySpan, addedPair] using this

/-- An unknown key whose first line has neither an equals sign nor an end behind the name, so that the
scanner does not read it before a value is added. -/
def GainsUnknownPair (t : Text) (key : KeyName) : Prop :=
  Rule.ofKey? key.text = none ∧
    ∃ n lead name gap old, find? key.text t = some (n, .loose lead name gap old) ∧ Ascii name

theorem ofKey?_of_ascii (h : k.Fits key.text) (ha : Ascii k.name) :
    Rule.ofKey? k.name = Rule.ofKey? key.text := by
  simp only [Rule.ofKey?, KeyName.spells_and_ascii_iff.1 ⟨h.spells, ha⟩]

theorem FirstLine.annotateKey_mem (hf : FirstLine key t before k e after) (ha : Ascii k.name)
    (hk : ∀ lead name gap old, k ≠ .loose lead name gap old) :
    Scan.annotateKey (size (textOf before)) (k.addedPair value) ∈ (scanLines t).flatMap Scan.annotate := by
  have hform : ∃ p, k.form? = some (.pair p) ∧ p.lead = k.lead ∧ p.name = k.name := by
    cases k with
    | bare lead name gap => exact ⟨_, rfl, rfl, rfl⟩
    | assigned lead name gap old => exact ⟨_, rfl, rfl, rfl⟩
    | loose lead name gap old => exact absurd rfl (hk lead name gap old)
  obtain ⟨p, hp, hlead, hname⟩ := hform
  rw [LineMatch.scanLines_of_lines hf.lines, ofBody?_render_of_ascii hf.fits ha, hp,
    Scan.annotateKey_congr _ hlead.symm hname.symm]
  simp only [List.flatMap_append, List.mem_append]
  exact .inl (.inr (List.mem_flatMap.2 ⟨_, List.mem_singleton.2 rfl, Scan.annotateKey_mem _ p⟩))

theorem FirstLine.wasThere_annotateKey (hf : FirstLine key t before k e after) (ha : Ascii k.name)
    (hg : ¬ GainsUnknownPair t key)
    (he : (Scan.annotateKey (size (textOf before)) (k.addedPair value)).severity = .error) :
    WasThere t (FirstLine.result before k e after value) (k.add value (size (textOf before))) r
      (Scan.annotateKey (size (textOf before)) (k.addedPair value)) := by
  have hu : Rule.ofKey? key.text = none := by
    rw [← ofKey?_of_ascii hf.fits ha]
    exact Scan.severity_annotateKey_iff.1 he
  have hk : ∀ lead name gap old, k ≠ .loose lead name gap old := by
    rintro lead name gap old rfl
    exact hg ⟨hu, _, lead, name, gap, old, hf.find?, ha⟩
  refine ⟨_, Scan.mem_errors_ofText.2 ⟨hf.annotateKey_mem ha hk, he⟩, rfl, ⟨k.name, ?_, ?_⟩,
    .inl ⟨stop_annotateKey_le k value _, rfl⟩⟩
  · conv_lhs => rw [hf.text_eq]
    exact covered?_annotateKey _ _ value k rfl rfl
  · exact covered?_annotateKey _ _ value (k.added value) lead_added name_added

/-! ### Errors of the text with the value -/

/-- An error on the line that does not touch what was written is on the key and was so before. -/
theorem FirstLine.wasThere_of_mem_line (hf : FirstLine key t before k e after)
    (hv : ValueSource.OneLine value) (hg : ¬ GainsUnknownPair t key)
    (ha : a ∈ ((LineForm.ofBody? (k.added value).render).map
      (LineMatch.mk (size (textOf before)))).toList.flatMap Scan.annotate)
    (he : a.severity = .error) (hn : Outcome.touches (k.add value (size (textOf before))) a.span = false) :
    WasThere t (FirstLine.result before k e after value) (k.add value (size (textOf before))) r a := by
  by_cases hascii : Ascii k.name
  · rw [ofBody?_added hf.fits hv hascii] at ha
    have ha : a ∈ Scan.annotatePair (size (textOf before)) (k.addedPair value) := by
      simpa [Scan.annotate] using ha
    rcases Scan.eq_or_onValue_of_mem_annotatePair ha with rfl | hon
    · exact hf.wasThere_annotateKey hascii hg he
    · rw [touches_of_onValue hf.fits hv hascii hon] at hn
      cases hn
  · rw [ofBody?_render_of_not_ascii (hf.fits.added value) (by rwa [name_added])] at ha
    cases ha

theorem FirstLine.wasThere (hf : FirstLine key t before k e after) (hv : ValueSource.OneLine value)
    (hg : ¬ GainsUnknownPair t key)
    (ha : a ∈ (scanLines (FirstLine.result before k e after value)).flatMap Scan.annotate)
    (he : a.severity = .error)
    (hn : Outcome.touches (TunnelConf.mergeInsert t key value) a.span = false) :
    WasThere t (FirstLine.result before k e after value) (TunnelConf.mergeInsert t key value) r a := by
  have hs := hf.sameElsewhere hv.body
  rw [hf.mergeInsert] at hn ⊢
  rw [hs.edited, List.flatMap_append, List.flatMap_append, List.mem_append, List.mem_append] at ha
  rcases ha with (ha | ha) | ha
  · refine hs.wasThere_of_mem_before ha he ?_ r
    have hstart := le_start_add k value (size (textOf before))
    have := Scan.stop_le_of_mem_ofLines ha
    omega
  · exact hf.wasThere_of_mem_line hv hg ha he hn
  · refine hs.wasThere_of_mem_after ha he ?_ r
    have hend := start_add_size_add k value (size (textOf before))
    have := Scan.le_start_of_mem_ofLines ha
    simp only [Line.text, size_append] at this
    omega

/-- A line behind the end of the text was written as a whole. -/
theorem touches_of_mem_fresh (hv : ValueSource.OneLine value) {n : Nat}
    (ha : a ∈ ((LineForm.ofBody? (fresh key value).render).map
      (LineMatch.mk (n + 1))).toList.flatMap Scan.annotate) :
    Outcome.touches (.insert n ('\n' :: (fresh key value).render)) a.span = true := by
  have hascii : Ascii key.text := KeyName.ascii_of_isAlphanumeric key.isAlphanumeric_of_mem
  have hform := ofBody?_added (fits_bare key) hv hascii
  have hrender := LineForm.render_of_ofBody? hform
  rw [← fresh_eq_added] at hform hrender
  rw [hform] at ha
  have ha : a ∈ Scan.annotatePair (n + 1) ((KeyLine.bare [] key.text []).addedPair value) := by
    simpa [Scan.annotate] using ha
  obtain ⟨hstart, hstop, hlen⟩ := Scan.bounds_of_mem_annotatePair ha key.nonempty hv.nonempty
  have hlf : ('\n' : Char).utf8Size = 1 := rfl
  have hrender : size ((KeyLine.bare [] key.text []).addedPair value).render = size (fresh key value).render :=
    congrArg size hrender
  simp only [Span.stop] at hstop
  apply Outcome.touches_of_start
  · simp only [Splice.insert, Splice.replace]; omega
  · simp only [Splice.insert, Splice.replace, size_cons, hlf]; omega

theorem wasThere_of_find?_eq_none (hf : find? key.text t = none) (hv : ValueSource.OneLine value)
    (ha : a ∈ (scanLines (t ++ '\n' :: (fresh key value).render)).flatMap Scan.annotate)
    (he : a.severity = .error) (hn : Outcome.touches (mergeInsert t key value) a.span = false) :
    WasThere t (t ++ '\n' :: (fresh key value).render) (mergeInsert t key value) r a := by
  have hs := SameElsewhere.of_appended t (isBody_fresh key hv.body)
  rw [mergeInsert_of_find?_eq_none hf] at hn ⊢
  rw [hs.edited, List.append_nil, List.flatMap_append, List.mem_append] at ha
  rcases ha with ha | ha
  · refine hs.wasThere_of_mem_before ha he ?_ r
    rw [LineMatch.scanLines_eq_ofLines] at ha
    have := Scan.stop_le_of_mem_ofLines ha
    rwa [textOf_ofVisual] at this
  · rw [touches_of_mem_fresh hv ha] at hn
    cases hn

/-! ### The key of a line that becomes a pair -/

section Loose

variable {lead name gap old : Text}

/-- The line has no annotations of its own, and those of other lines stand elsewhere. -/
theorem FirstLine.start_ne_of_loose (hf : FirstLine key t before (.loose lead name gap old) e after)
    (ha : Ascii name) (hb : a ∈ (scanLines t).flatMap Scan.annotate) (hlen : a.span.len = size name) :
    a.span.start ≠ size (textOf before) + size lead := by
  intro hstart
  have hold : LineForm.ofBody? (KeyLine.loose lead name gap old).render = none :=
    ofBody?_render_of_ascii hf.fits ha
  have hpos : 0 < size name := size_pos_iff.2 hf.fits.spells.ne_nil
  rw [LineMatch.scanLines_of_lines hf.lines, hold] at hb
  simp only [Option.map_none, Option.toList_none, List.append_nil, List.flatMap_append, List.mem_append] at hb
  rcases hb with hb | hb
  · have := Scan.stop_le_of_mem_ofLines hb
    simp only [Span.stop] at this
    omega
  · have := Scan.le_start_of_mem_ofLines hb
    simp only [Line.text, size_append, render, KeyLine.lead, KeyLine.name] at this
    omega

theorem FirstLine.not_wasThere_annotateKey (hf : FirstLine key t before (.loose lead name gap old) e after)
    (ha : Ascii name) : ¬ WasThere t (FirstLine.result before (.loose lead name gap old) e after value)
      (TunnelConf.mergeInsert t key value) r
      (Scan.annotateKey (size (textOf before)) ((KeyLine.loose lead name gap old).addedPair value)) := by
  rintro ⟨b, hb, -, ⟨u, hbu, hau⟩, hplace⟩
  have hspan := Scan.span_annotateKey (size (textOf before)) ((KeyLine.loose lead name gap old).addedPair value)
  have hlen : b.span.len = size name := by
    rw [← (size_of_slice? hbu).1, (size_of_slice? hau).1, hspan]; rfl
  refine hf.start_ne_of_loose ha (Scan.mem_errors_ofText.1 hb).1 hlen ?_
  rcases hplace with ⟨-, h⟩ | ⟨h, -⟩
  · rw [h, hspan]; rfl
  · have hle := stop_annotateKey_le (KeyLine.loose lead name gap old) value (size (textOf before))
    have hpos : 0 < size name := size_pos_iff.2 hf.fits.spells.ne_nil
    rw [hf.mergeInsert] at h
    rw [hspan] at hle h
    simp only [Span.stop, Pair.keySpan, addedPair, KeyLine.lead, KeyLine.name] at hle h
    omega

/-- The key of an unknown pair is annotated for the first time, and in front of what was written. -/
theorem FirstLine.exists_not_wasThere (hf : FirstLine key t before (.loose lead name gap old) e after)
    (hv : ValueSource.OneLine value) (ha : Ascii name) (hu : Rule.ofKey? key.text = none) :
    ∃ a ∈ (scanLines (FirstLine.result before (.loose lead name gap old) e after value)).flatMap Scan.annotate,
      a.severity = .error ∧ Outcome.touches (TunnelConf.mergeInsert t key value) a.span = false ∧
      ∀ r, ¬ WasThere t (FirstLine.result before (.loose lead name gap old) e after value)
        (TunnelConf.mergeInsert t key value) r a := by
  have hs := hf.sameElsewhere hv.body
  have hrule : Rule.ofKey? name = none := by rw [← hu]; exact ofKey?_of_ascii hf.fits ha
  refine ⟨Scan.annotateKey (size (textOf before)) ((KeyLine.loose lead name gap old).addedPair value),
    ?_, Scan.severity_annotateKey_iff.2 hrule, ?_, fun r => hf.not_wasThere_annotateKey ha⟩
  · rw [hs.edited, ofBody?_added hf.fits hv ha]
    simp only [List.flatMap_append, List.mem_append]
    exact .inl (.inr (List.mem_flatMap.2 ⟨_, List.mem_singleton.2 rfl, Scan.annotateKey_mem _ _⟩))
  · rw [hf.mergeInsert]; exact not_touches_annotateKey hf.fits value _

end Loose

end KeyLine

/-! ### The outcome of an edit -/

section Outcome

variable {t value result : Text} {key : KeyName} {d : Draft} {path : Text} {r : RandomStream}

/-- The draft of a merge holds the splice, what it makes of the text and the scan of that. -/
structure Draft.IsMerge (d : Draft) (t : Text) (key : KeyName) (value : Text) (r : RandomStream) : Prop where
  splice : d.splice = some (mergeInsert t key value)
  result : (mergeInsert t key value).apply t = .ok d.result
  scan : d.scan = (Scan.ofText d.result r).1

theorem KeyName.ofText?_text (key : KeyName) : ofText? key.text = some key :=
  dif_pos ⟨key.nonempty, key.alphanumeric⟩

theorem Draft.exists_ofMerge (t : Text) (key : KeyName) (value : Text) (r : RandomStream) :
    ∃ d, ofMerge t key.text value r = .ok d ∧ d.IsMerge t key value r := by
  obtain ⟨result, hr⟩ := KeyLine.exists_apply t key value
  simp only [ofMerge, KeyName.ofText?_text, hr]
  exact ⟨_, rfl, rfl, hr, rfl⟩

theorem Draft.IsMerge.accounts_iff (h : d.IsMerge t key value r)
    (hr : (mergeInsert t key value).apply t = .ok result) :
    (d.outcome path).Accounts t ↔ ∀ r', ∀ a ∈ (scanLines result).flatMap Scan.annotate, a.severity = .error →
      Outcome.touches (mergeInsert t key value) a.span = false →
      WasThere t result (mergeInsert t key value) r' a := by
  obtain rfl : d.result = result := Except.ok.inj (h.result.symm.trans hr)
  have hscan : (d.outcome path).scan.errors = (Scan.ofText d.result r).1.errors := by
    rw [← h.scan]; rfl
  have hmem : ∀ a, a ∈ (d.outcome path).introducedErrors ↔
      a ∈ (d.outcome path).scan.errors ∧ Outcome.touches (mergeInsert t key value) a.span = true := by
    intro a
    rw [Outcome.introducedErrors, List.mem_filter, show (d.outcome path).splice = d.splice from rfl,
      h.splice]
    rfl
  constructor
  · rintro ⟨s, hs, hacc⟩ r' a ha he hn
    obtain rfl : mergeInsert t key value = s := Option.some.inj (h.splice.symm.trans hs)
    refine hacc r' a (hscan ▸ Scan.mem_errors_ofText.2 ⟨ha, he⟩) fun hi => ?_
    rw [((hmem a).1 hi).2] at hn
    cases hn
  · intro hall
    refine ⟨_, h.splice, fun r' a ha hi => ?_⟩
    obtain ⟨hal, he⟩ := Scan.mem_errors_ofText.1 (hscan ▸ ha)
    refine hall r' a hal he (Bool.eq_false_iff.2 fun ht => hi ((hmem a).2 ⟨ha, ht⟩))

theorem Draft.IsMerge.accounts (h : d.IsMerge t key value r) (hv : ValueSource.OneLine value)
    (hg : ¬ KeyLine.GainsUnknownPair t key) : (d.outcome path).Accounts t := by
  cases hf : KeyLine.find? key.text t with
  | none =>
    rw [h.accounts_iff (KeyLine.apply_of_find?_eq_none hf value)]
    intro r' a ha he hn
    exact KeyLine.wasThere_of_find?_eq_none hf hv ha he hn
  | some q =>
    obtain ⟨n, k⟩ := q
    obtain ⟨before, e, after, hfl, rfl⟩ := KeyLine.exists_firstLine hf
    rw [h.accounts_iff (hfl.apply value)]
    intro r' a ha he hn
    exact hfl.wasThere hv hg ha he hn

theorem Draft.IsMerge.not_accounts (h : d.IsMerge t key value r) (hv : ValueSource.OneLine value)
    (hg : KeyLine.GainsUnknownPair t key) : ¬ (d.outcome path).Accounts t := by
  obtain ⟨hu, n, lead, name, gap, old, hf, ha⟩ := hg
  obtain ⟨before, e, after, hfl, rfl⟩ := KeyLine.exists_firstLine hf
  rw [h.accounts_iff (hfl.apply value)]
  intro hall
  obtain ⟨a, hmem, he, hn, hno⟩ := hfl.exists_not_wasThere hv ha hu
  exact hno r (hall r a hmem he hn)

theorem Workspace.eq_outcome_of_finish {w : Workspace} {options : EditOptions} {o : Outcome}
    (h : (w.finish path options d).result = .ok o) : o = d.outcome path := by
  unfold finish at h
  dsimp only at h
  split at h
  · exact (Except.ok.inj h).symm
  · cases hr : (w.tree.writeAtomic path d.result options.backup).result with
    | ok u => rw [hr] at h; exact (Except.ok.inj h).symm
    | error e => rw [hr] at h; cases h

end Outcome

/-- When a value is added to a key of a file, every error of the result that the edit does not report
was there before, unless the key is unknown and its first line has a value without an equals sign.
That line becomes a pair, and the error on its key stands in front of what was written. -/
theorem addValue_accounts_iff (w : Workspace) (input : List UInt8) (q : AddRequest) (t : Text)
    (key : KeyName) (value : Text) (ht : w.readText q.path = .ok t)
    (hk : KeyName.ofText? q.key = some key) (hv : q.value.load w.tree input = .ok value) :
    ∃ d : Draft, d.IsMerge t key value w.random ∧ w.addValue input q = w.finish q.path q.options d ∧
      (∀ o, (w.addValue input q).result = .ok o → o = d.outcome q.path) ∧
      ((d.outcome q.path).Accounts t ↔ ¬ KeyLine.GainsUnknownPair t key) := by
  have hkey : q.key = key.text := by
    simp only [KeyName.ofText?] at hk
    split at hk
    · cases hk; rfl
    · cases hk
  have hone : ValueSource.OneLine value := by
    rw [ValueSource.load] at hv
    cases hr : q.value.read w.tree input with
    | error e => rw [hr] at hv; cases hv
    | ok raw => rw [hr] at hv; exact ValueSource.exists_singleLine_iff.1 ⟨raw, hv⟩
  obtain ⟨d, hd, hm⟩ := Draft.exists_ofMerge t key value w.random
  have hadd : w.addValue input q = w.finish q.path q.options d := by
    rw [Workspace.addValue, ht, hv, hkey]
    show w.edit q.path q.options (Draft.ofMerge t key.text value w.random) = _
    rw [hd]; rfl
  refine ⟨d, hm, hadd, fun o ho => Workspace.eq_outcome_of_finish (hadd ▸ ho), fun hacc hg => ?_, hm.accounts hone⟩
  exact hm.not_accounts hone hg hacc

/-- An unknown key that has an equals sign: the error on it and those behind it were there. -/
theorem addValue_accounts_assigned :
    ∃ d : Draft, d.IsMerge "Table=1\nMTU x\nDNS=y".toList ⟨"Table".toList, by decide, by decide⟩ "off".toList
        (.cycle []) ∧
      (d.outcome "f".toList).Accounts "Table=1\nMTU x\nDNS=y".toList := by
  obtain ⟨d, hm, -, -, hiff⟩ := addValue_accounts_iff
    ⟨⟨[(["f".toList], .file ⟨utf8 "Table=1\nMTU x\nDNS=y".toList, 0o600⟩)], []⟩, .cycle []⟩ []
    ⟨"f".toList, "Table".toList, .inline "off\n".toList, ⟨true, false⟩⟩ "Table=1\nMTU x\nDNS=y".toList
    ⟨"Table".toList, by decide, by decide⟩ "off".toList (by decide +kernel)
    (KeyName.ofText?_text ⟨"Table".toList, by decide, by decide⟩) (by decide)
  refine ⟨d, hm, hiff.2 ?_⟩
  rintro ⟨-, n, lead, name, gap, old, hf, -⟩
  have : KeyLine.find? "Table".toList "Table=1\nMTU x\nDNS=y".toList =
    some (0, .assigned [] "Table".toList [] "1".toList) := by decide
  rw [this] at hf
  cases hf

/-- An unknown key without an equals sign: the error on the key is neither reported nor old. -/
theorem addValue_not_accounts_loose :
    ∃ d : Draft, Draft.ofMerge "Table off\n".toList "Table".toList "x".toList (.cycle []) = .ok d ∧
      ¬ (d.outcome "wg0.conf".toList).Accounts "Table off\n".toList := by
  obtain ⟨d, hd, hm⟩ := Draft.exists_ofMerge "Table off\n".toList ⟨"Table".toList, by decide, by decide⟩
    "x".toList (.cycle [])
  refine ⟨d, hd, hm.not_accounts ⟨by decide, by decide, by simp [IsBody]⟩ ⟨by decide, ?_⟩⟩
  exact ⟨0, [], "Table".toList, " ".toList, "off".toList, by decide, by simp [Ascii]⟩

end TunnelConf
