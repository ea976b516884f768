import TunnelConf.Proofs.Merge.Edit
import TunnelConf.Rule.Basic

/-!
# The line that merging edits

`IsLineOf` says which lines are lines of a key, for a way to compare names. Merging compares names
up to `KeyName.fold` (`KeyLine.isLineOf_fold_iff`), the scanner and the rules compare them up to the
case of ASCII letters. So merging edits the first line that has the key in ASCII, and appends if
there is none, exactly if no line that only `fold` takes for one of the key stands in front.
-/

namespace TunnelConf

open Text Line

namespace KeyLine

/-- A name ends at the end of the line, at a blank or at an equals sign. -/
def EndsName (rest : Text) : Prop := ∀ c ∈ rest.head?, isBlank c = true ∨ c = '='

/-- `name` is `key` for the comparison, behind blanks, and ends where `rest` begins. -/
structure NamedBy (norm : Text → Text) (key lead name rest : Text) : Prop where
  lead : ∀ c ∈ lead, isBlank c = true
  name : norm name = norm key
  rest : EndsName rest

/-- The first characters of `body` that are not blank are the key. -/
def IsLineOf (norm : Text → Text) (key body : Text) : Prop :=
  ∃ lead name rest, body = lead ++ (name ++ rest) ∧ NamedBy norm key lead name rest

variable {key : KeyName} {body t value : Text} {before after : List Line} {k : KeyLine} {l : Line}

/-! ### Lines of a key for merging and for the scanner -/

theorem Fits.endsName (h : k.Fits key.text) : EndsName (k.gap ++ k.rest) := by
  intro c hc
  cases hg : k.gap with
  | cons b g =>
    obtain rfl : b = c := by simpa [hg] using hc
    exact .inl (h.gap b (by simp [hg]))
  | nil =>
    rw [hg, List.nil_append] at hc
    cases k with
    | bare lead name gap => cases hc
    | assigned lead name gap old => exact .inr (by simpa [KeyLine.rest] using hc.symm)
    | loose lead name gap old => exact absurd hg (h.loose _ _ _ _ rfl).1

theorem Fits.namedBy (h : k.Fits key.text) :
    NamedBy (List.map KeyName.fold) key.text k.lead k.name (k.gap ++ k.rest) :=
  ⟨h.lead, h.spells, h.endsName⟩

theorem NamedBy.exists_fits {lead name rest : Text}
    (h : NamedBy (List.map KeyName.fold) key.text lead name rest) :
    ∃ k : KeyLine, k.Fits key.text ∧ k.lead = lead ∧ k.name = name ∧ k.gap ++ k.rest = rest := by
  obtain ⟨gap, tail, rfl, hgap, htail⟩ := exists_run isBlank rest
  cases tail with
  | nil => exact ⟨.bare lead name gap, ⟨h.lead, h.name, hgap, htail, fun _ _ _ _ h => by cases h⟩, rfl, rfl, rfl⟩
  | cons c tail =>
    by_cases he : c = '='
    · subst he
      exact ⟨.assigned lead name gap tail, ⟨h.lead, h.name, hgap, htail, fun _ _ _ _ h => by cases h⟩,
        rfl, rfl, rfl⟩
    · have hne : gap ≠ [] := by
        rintro rfl
        rcases h.rest c rfl with hb | hb
        · rw [stops_cons.1 htail] at hb; cases hb
        · exact he hb
      refine ⟨.loose lead name gap (c :: tail), ⟨h.lead, h.name, hgap, htail, fun _ _ _ _ h => ?_⟩, rfl, rfl, rfl⟩
      cases h
      exact ⟨hne, List.cons_ne_nil c tail, by simpa using he⟩

/-- Merging takes the lines of a key up to `fold`. -/
theorem isLineOf_fold_iff :
    IsLineOf (List.map KeyName.fold) key.text body ↔ ∃ k, ofBody? key.text body = some k := by
  constructor
  · rintro ⟨lead, name, rest, rfl, h⟩
    obtain ⟨k, hk, rfl, rfl, rfl⟩ := h.exists_fits
    exact ⟨k, ofBody?_of_fits hk⟩
  · rintro ⟨k, h⟩
    obtain ⟨rfl, hk⟩ := ofBody?_eq_some_iff.1 h
    exact ⟨k.lead, k.name, k.gap ++ k.rest, rfl, hk.namedBy⟩

/-- The lines of a key up to the case of ASCII letters are those that spell it in ASCII. -/
theorem isLineOf_lower_iff :
    IsLineOf lower key.text body ↔ ∃ k, ofBody? key.text body = some k ∧ Ascii k.name := by
  constructor
  · rintro ⟨lead, name, rest, rfl, h⟩
    obtain ⟨hs, ha⟩ := KeyName.spells_and_ascii_iff.2 h.name
    obtain ⟨k, hk, rfl, rfl, rfl⟩ := NamedBy.exists_fits ⟨h.lead, hs, h.rest⟩
    exact ⟨k, ofBody?_of_fits hk, ha⟩
  · rintro ⟨k, h, ha⟩
    obtain ⟨rfl, hk⟩ := ofBody?_eq_some_iff.1 h
    exact ⟨k.lead, k.name, k.gap ++ k.rest, rfl,
      hk.lead, KeyName.spells_and_ascii_iff.1 ⟨hk.spells, ha⟩, hk.endsName⟩

theorem IsLineOf.fold (h : IsLineOf lower key.text body) :
    IsLineOf (List.map KeyName.fold) key.text body := by
  obtain ⟨k, hk, -⟩ := isLineOf_lower_iff.1 h
  exact isLineOf_fold_iff.2 ⟨k, hk⟩

theorem ofBody?_eq_none_iff :
    ofBody? key.text body = none ↔ ¬ IsLineOf (List.map KeyName.fold) key.text body := by
  rw [isLineOf_fold_iff, Option.eq_none_iff_forall_ne_some, not_exists]

/-! ### Edits of a line of a key -/

/-- The splice writes behind the name of the line `l` and nowhere else. The line is no comment and no
header, and it is one of the key for the scanner and for the rules too. -/
structure EditsLine (s : Splice) (t : Text) (key : KeyName) (before : List Line) (l : Line)
    (after : List Line) (lead name rest rest' : Text) : Prop where
  body : l.body = lead ++ (name ++ rest)
  named : NamedBy lower key.text lead name rest
  start : size (textOf before) + size lead + size name ≤ s.start
  stop : s.stop = size (textOf before) + size l.body
  apply : s.apply t =
    .ok (textOf before ++ (lead ++ (name ++ rest')) ++ (l.ending.text ++ textOf after))
  named_after : NamedBy lower key.text lead name rest'
  form : ∀ f, LineForm.ofBody? l.body = some f → ∃ p, f = .pair p ∧ p.lead = lead ∧ p.name = name
  rule : Rule.ofKey? name = Rule.ofKey? key.text

theorem exists_pair_of_ofBody?_render (h : k.Fits key.text) {f : LineForm}
    (hf : LineForm.ofBody? k.render = some f) : ∃ p, f = .pair p ∧ p.lead = k.lead ∧ p.name = k.name := by
  by_cases ha : Ascii k.name
  · rw [ofBody?_render_of_ascii h ha] at hf
    cases k with
    | bare lead name gap => exact ⟨_, (Option.some.inj hf).symm, rfl, rfl⟩
    | assigned lead name gap old => exact ⟨_, (Option.some.inj hf).symm, rfl, rfl⟩
    | loose lead name gap old => cases hf
  · rw [ofBody?_render_of_not_ascii h ha] at hf
    cases hf

theorem FirstLine.editsLine {e : Ending} (h : FirstLine key t before k e after) (ha : Ascii k.name)
    (value : Text) : EditsLine (TunnelConf.mergeInsert t key value) t key before ⟨k.render, e⟩ after
      k.lead k.name (k.gap ++ k.rest) ((k.added value).gap ++ (k.added value).rest) := by
  have hname : lower k.name = lower key.text := KeyName.spells_and_ascii_iff.1 ⟨h.fits.spells, ha⟩
  refine ⟨rfl, ⟨h.fits.lead, hname, h.fits.endsName⟩, ?_, ?_, ?_,
    ⟨h.fits.lead, hname, (h.fits.added value).endsName⟩,
    fun f hf => exists_pair_of_ofBody?_render h.fits hf, ?_⟩
  · rw [h.mergeInsert]; exact le_start_add k value _
  · rw [h.mergeInsert]; exact stop_add k value _
  · have := h.apply value
    rwa [FirstLine.result, KeyLine.render, lead_added, name_added] at this
  · simp only [Rule.ofKey?, hname]

theorem FirstLine.mergeInsert_ne_insert {e : Ending} (h : FirstLine key t before k e after)
    (value u : Text) : TunnelConf.mergeInsert t key value ≠ .insert (size t) ('\n' :: u) := by
  intro hs
  have hn := head?_replacement_add k value (size (textOf before))
  rw [← h.mergeInsert, hs] at hn
  exact hn rfl

/-- Merging edits the first line of the key as the scanner knows lines, and appends a line if the
text has none. -/
structure EditsNamedLine (t : Text) (key : KeyName) (value : Text) : Prop where
  edits : ∀ before l after, ofVisual t = before ++ l :: after →
    (∀ m ∈ before, ¬ IsLineOf lower key.text m.body) → IsLineOf lower key.text l.body →
    ∃ lead name rest rest', EditsLine (mergeInsert t key value) t key before l after lead name rest rest'
  appends : mergeInsert t key value = .insert (size t) ('\n' :: key.text ++ " = ".toList ++ value) ↔
    ∀ l ∈ ofVisual t, ¬ IsLineOf lower key.text l.body

/-- The lines up to the first one that spells the key in ASCII are lines of the key in ASCII if they
are lines of the key at all. -/
def AsciiUpToFirst (t : Text) (key : KeyName) : Prop :=
  ∀ before l after, ofVisual t = before ++ l :: after →
    (∀ m ∈ before, ¬ IsLineOf lower key.text m.body) →
    IsLineOf (List.map KeyName.fold) key.text l.body → IsLineOf lower key.text l.body

theorem AsciiUpToFirst.exists_firstLine (h : AsciiUpToFirst t key)
    (hl : ofVisual t = before ++ l :: after) (hb : ∀ m ∈ before, ¬ IsLineOf lower key.text m.body)
    (hn : IsLineOf (List.map KeyName.fold) key.text l.body) :
    ∃ k e, l = ⟨k.render, e⟩ ∧ FirstLine key t before k e after ∧ Ascii k.name := by
  obtain ⟨k, hk, ha⟩ := isLineOf_lower_iff.1 (h before l after hl hb hn)
  obtain ⟨hr, hf⟩ := ofBody?_eq_some_iff.1 hk
  refine ⟨k, l.ending, by rw [hr], ⟨by rw [hr]; exact hl, hf, fun m hm => ?_⟩, ha⟩
  rw [ofBody?_eq_none_iff]
  intro hm'
  obtain ⟨b₁, b₂, rfl⟩ := List.append_of_mem hm
  refine hb m hm (h b₁ m (b₂ ++ l :: after) (by simp [hl]) (fun n hn => hb n (by simp [hn])) hm')

theorem AsciiUpToFirst.editsNamedLine (h : AsciiUpToFirst t key) (value : Text) :
    EditsNamedLine t key value := by
  constructor
  · intro before l after hl hb hn
    obtain ⟨k, e, rfl, hf, ha⟩ := h.exists_firstLine hl hb hn.fold
    exact ⟨_, _, _, _, hf.editsLine ha value⟩
  · constructor
    · intro hs l hl hn
      obtain ⟨before, m, after, hls, hb, hm⟩ :=
        exists_first_of_mem (P := fun m => IsLineOf lower key.text m.body) hl hn
      obtain ⟨k, e, rfl, hf, -⟩ := h.exists_firstLine hls hb hm.fold
      exact hf.mergeInsert_ne_insert value _ hs
    · intro hno
      have : find? key.text t = none := find?_eq_none_iff.2 fun l hl => ofBody?_eq_none_iff.2 fun hn => by
        obtain ⟨before, after, hls⟩ := List.append_of_mem hl
        exact hno l hl (h before l after hls (fun m hm => hno m (by simp [hls, hm])) hn)
      rw [mergeInsert_of_find?_eq_none this, render_fresh]
      rfl

/-- If merging edits the right line, the line that it finds spells the key in ASCII. -/
theorem EditsNamedLine.isLineOf_of_firstLine {e : Ending} (h : EditsNamedLine t key value)
    (hf : FirstLine key t before k e after) : IsLineOf lower key.text k.render := by
  by_contra hk
  by_cases hex : ∃ l ∈ ofVisual t, IsLineOf lower key.text l.body
  · obtain ⟨l, hl, hn⟩ := hex
    obtain ⟨before', m, after', hls, hb, hm⟩ :=
      exists_first_of_mem (P := fun m => IsLineOf lower key.text m.body) hl hn
    obtain ⟨lead, name, rest, rest', he⟩ := h.edits before' m after' hls hb hm
    rcases eq_or_append_of_append_eq (hf.lines.symm.trans hls) with rfl | ⟨x, rfl⟩ | ⟨x, rfl⟩
    · exact hk hm
    · -- the splice would begin behind the end of the line that it replaces
      have hstart := he.start
      have hstop : (TunnelConf.mergeInsert t key value).stop = size (textOf before) + size k.render := by
        rw [hf.mergeInsert]; exact stop_add k value _
      have hname : 0 < size name :=
        size_pos_iff.2 (KeyName.spells_and_ascii_iff.2 he.named.name).1.ne_nil
      simp only [Splice.stop] at hstop
      simp only [textOf_append, textOf_cons, Line.text, size_append] at hstart
      omega
    · exact ofBody?_eq_none_iff.1 (hf.none_before m (by simp)) hm.fold
  · exact hf.mergeInsert_ne_insert value _ (h.appends.2 fun l hl hn => hex ⟨l, hl, hn⟩)

theorem EditsNamedLine.asciiUpToFirst (h : EditsNamedLine t key value) : AsciiUpToFirst t key := by
  intro before l after hl hb hn
  have hmem : l ∈ ofVisual t := by simp [hl]
  obtain ⟨before', m, after', hls, hb', hm⟩ :=
    exists_first_of_mem (P := fun m => IsLineOf (List.map KeyName.fold) key.text m.body) hmem hn
  obtain ⟨k, hk⟩ := isLineOf_fold_iff.1 hm
  obtain ⟨hr, hf⟩ := ofBody?_eq_some_iff.1 hk
  have hf : FirstLine key t before' k m.ending after' :=
    ⟨by rw [hr]; exact hls, hf, fun n hn => ofBody?_eq_none_iff.2 (hb' n hn)⟩
  have hmn := hr ▸ h.isLineOf_of_firstLine hf
  rcases eq_or_append_of_append_eq (hl.symm.trans hls) with rfl | ⟨x, rfl⟩ | ⟨x, rfl⟩
  · exact hmn
  · exact absurd hn (hb' l (by simp))
  · exact absurd hmn (hb m (by simp))

end KeyLine

/-- Merging edits the first line that has the key up to the case of ASCII letters, and appends exactly
if there is none, unless a line in front of it has a letter outside ASCII in the place of a `k` or
an `s` of the key; then that line is edited, which the scanner takes for none of the key. -/
theorem editsNamedLine_iff (t : Text) (key : KeyName) (value : Text) :
    KeyLine.EditsNamedLine t key value ↔ KeyLine.AsciiUpToFirst t key :=
  ⟨KeyLine.EditsNamedLine.asciiUpToFirst, fun h => h.editsNamedLine value⟩

/-- A long s in the name: the line is edited although the scanner sees no line of the key. -/
theorem not_editsNamedLine_long_s :
    ¬ KeyLine.EditsNamedLine "AllowedApp\u017f = a\n".toList ⟨"AllowedApps".toList, by decide, by decide⟩
      "b".toList := by
  intro h
  have hs := h.appends.2 fun l hl hn => ?_
  · revert hs; decide
  · obtain ⟨k, hk, ha⟩ := KeyLine.isLineOf_lower_iff.1 hn
    have hls : ofVisual "AllowedApp\u017f = a\n".toList =
      [⟨"AllowedApp\u017f = a".toList, .lf⟩, ⟨[], .none⟩] := by decide
    rw [hls] at hl
    rcases List.mem_cons.1 hl with rfl | hl
    · have : KeyLine.ofBody? "AllowedApps".toList "AllowedApp\u017f = a".toList =
        some (.assigned [] "AllowedApp\u017f".toList [' '] " a".toList) := by decide
      obtain rfl := Option.some.inj (this.symm.trans hk)
      exact absurd (ha '\u017f' (by decide)) (by decide)
    · obtain rfl := List.mem_singleton.1 hl
      rw [KeyLine.ofBody?_nil] at hk
      cases hk

end TunnelConf
