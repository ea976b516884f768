import TunnelConf.Proofs.Diff.SmallEdits
import TunnelConf.Proofs.Edit.Files
import TunnelConf.Proofs.Merge.Findings

/-!
# The diff of a merge

A merge puts another line in the place of the first line of a key (`KeyLine.FirstLine.linesOf_edited`), or a line
behind the last one, which may need an ending first (`KeyLine.linesOf_appended`). Either is a small edit, so the diff
of a merge counts right, and it can be applied unless the edited line slides over a line that is equal to it
(`addValue_diff_iff`).
-/

namespace TunnelConf

open Text Line

/-! ### Lines that hold something -/

namespace Line

/-- The lines that are not empty, with their endings. -/
def texts (ls : List Line) : List Text := (ls.map text).filter fun l => !l.isEmpty

theorem linesOf_eq (t : Text) : Diff.linesOf t = texts (ofVisual t) := rfl

theorem texts_append (ls ms : List Line) : texts (ls ++ ms) = texts ls ++ texts ms := by
  rw [texts, List.map_append, List.filter_append]
  rfl

theorem texts_cons {l : Line} (h : l.text ≠ []) (ls : List Line) : texts (l :: ls) = l.text :: texts ls := by
  rw [texts, List.map_cons, List.filter_cons_of_pos (by simpa using h)]
  rfl

theorem text_ne_nil_of_body {b : Text} (h : b ≠ []) (e : Ending) : text ⟨b, e⟩ ≠ [] := by
  simp [text, h]

/-- What stands behind the last ending is no line if it is empty. -/
theorem texts_empty : texts [⟨[], .none⟩] = [] := rfl

/-- An LF behind the last line leaves the lines in front. -/
theorem terminate_append {ls ms : List Line} (h : Proper (ls ++ ms)) (hne : ms ≠ []) (hm : ms ≠ [⟨[], .none⟩]) :
    terminate (ls ++ ms) = ls ++ terminate ms := by
  induction ls with
  | nil => rfl
  | cons l ls ih =>
    obtain ⟨k, ks, hk⟩ := List.exists_cons_of_ne_nil (l := ls ++ ms) (by simp [hne])
    rw [List.cons_append, hk] at h
    rw [List.cons_append, List.cons_append, ← ih (hk ▸ h.2.2), hk, terminate, if_neg]
    rintro ⟨-, hb, he⟩
    cases ks with
    | nil =>
      have hlast : k = ⟨[], .none⟩ := by
        obtain ⟨b, e⟩ := k
        rw [show b = [] from hb, show e = .none from he]
      rcases List.append_eq_singleton_iff.1 hk with ⟨-, hms⟩ | ⟨-, hms⟩
      · exact hm (by rw [hms, hlast])
      · exact hne hms
    | cons n ks => exact h.2.2.2.1.1 he

/-- A text that is not empty and does not end in LF has a last line, and an LF completes that line. -/
theorem exists_linesOf_append_lf {t : Text} (hne : t ≠ []) (hlf : t.getLast? ≠ some '\n') :
    ∃ front l, Diff.linesOf t = front ++ [l] ∧ texts (terminate (ofVisual t)) = front ++ [l ++ ['\n']] := by
  have hp := proper_ofVisual t
  obtain ⟨before, b, hls⟩ := hp.exists_last
  by_cases hb : b = []
  -- what is behind the last ending is empty, and that ending is a CR, which takes the LF
  · subst hb
    have ht := textOf_ofVisual t
    rw [hls] at hp ht
    obtain ⟨front, ⟨b, e⟩, rfl⟩ := (List.eq_nil_or_concat' before).resolve_left (by
      rintro rfl
      exact hne ht.symm)
    have hlast : t = textOf front ++ b ++ e.text := by simpa [text, Ending.text] using ht.symm
    obtain rfl : e = .cr := by
      cases e with
      | none =>
        have hlines : Proper (front ++ ⟨b, .none⟩ :: [⟨[], .none⟩]) := by simpa using hp
        have hsize := hlines.size_body_lt (by simp)
        simp [text, Ending.text] at hsize
      | lf => simp [hlast, Ending.text] at hlf
      | crlf => simp [hlast, Ending.text] at hlf
      | cr => rfl
    rw [List.append_assoc] at hls hp
    have hcrlf : terminate ([⟨b, .cr⟩] ++ [⟨[], .none⟩]) = [⟨b, .crlf⟩] := if_pos ⟨rfl, rfl, rfl⟩
    refine ⟨texts front, b ++ ['\r'], ?_, ?_⟩
    · rw [linesOf_eq, hls, texts_append]
      exact congrArg (texts front ++ ·) (texts_cons (by simp [text, Ending.text]) _)
    · rw [hls, terminate_append hp (by simp) (by simp), hcrlf, texts_append, texts_cons (by simp [text, Ending.text])]
      simp [text, Ending.text, texts]
  · rw [hls] at hp
    refine ⟨texts before, b, ?_, ?_⟩
    · rw [linesOf_eq, hls, texts_append, texts_cons (text_ne_nil_of_body hb _)]
      simp [text, Ending.text, texts]
    · rw [hls, terminate_append hp (by simp) (by simp [hb]), texts_append]
      exact congrArg (texts before ++ ·) (texts_cons (text_ne_nil_of_body hb _) _)

/-- Behind a text that is empty or ends in LF one more LF is a line. -/
theorem texts_terminate {t : Text} (h : t = [] ∨ t.getLast? = some '\n') :
    texts (terminate (ofVisual t)) = Diff.linesOf t ++ [['\n']] := by
  rcases h with rfl | hlf
  · rfl
  · obtain ⟨u, rfl⟩ := List.getLast?_eq_some_iff.1 hlf
    have hline : ofVisual (u ++ ['\n']) = terminate (ofVisual u) ++ [⟨[], .none⟩] := ofVisual_append_lf u []
    -- the text with one more LF, cut behind that LF and cut behind the LF in front of it
    have htwice : terminate (ofVisual (u ++ ['\n'])) ++ [⟨[], .none⟩] =
        terminate (ofVisual u) ++ [⟨[], .lf⟩] ++ [⟨[], .none⟩] := by
      have hfirst := ofVisual_append_lf u ['\n']
      have hsecond := ofVisual_append_lf (u ++ ['\n']) []
      rw [List.append_assoc] at hsecond
      rw [List.append_assoc]
      exact hsecond.symm.trans hfirst
    rw [List.append_cancel_right htwice, linesOf_eq, hline, texts_append, texts_append, texts_empty, List.append_nil]
    rfl

end Line

namespace KeyLine

variable {key : KeyName} {t value : Text} {before after : List Line} {k : KeyLine} {e : Ending}

/-! ### The line of a key -/

theorem length_lt_length_join (old : Text) (hv : value ≠ []) : old.length < (join old value).length := by
  have hpos := List.length_pos_iff.2 hv
  unfold join
  split
  · rw [List.length_append]; omega
  · rw [List.length_append, List.length_cons]; omega

/-- A value makes what is on a line longer, up to white space around it. -/
theorem length_listed_lt (k : KeyLine) (hv : value ≠ []) : k.listed.length < (k.gather value).length := by
  cases k with
  | bare lead name gap => exact List.length_pos_iff.2 hv
  | assigned lead name gap old =>
    simp only [listed, gather]
    split
    · next h => rw [List.isEmpty_iff.1 h]; exact List.length_pos_iff.2 hv
    · exact length_lt_length_join _ hv
  | loose lead name gap old => exact length_lt_length_join _ hv

theorem render_added_ne (h : k.Fits key.text) (hv : ValueSource.OneLine value) :
    (k.added value).render ≠ k.render := by
  intro heq
  have hsame : k.added value = k :=
    Option.some.inj ((ofBody?_of_fits (h.added value)).symm.trans (heq ▸ ofBody?_of_fits h))
  have hlisted := (written_added k hv).listed
  rw [hsame] at hlisted
  have hlt := length_listed_lt k hv.nonempty
  rw [hlisted] at hlt
  exact absurd hlt (Nat.lt_irrefl _)

/-- Another line stands in the place of the line of the key. -/
theorem FirstLine.linesOf_edited (hf : FirstLine key t before k e after) (hv : IsBody value) :
    Diff.linesOf t = texts before ++ (k.render ++ e.text) :: texts after ∧
      Diff.linesOf (result before k e after value) =
        texts before ++ ((k.added value).render ++ e.text) :: texts after := by
  have hne : k.render ≠ [] := by
    intro hnil
    have hbody := ofBody?_of_fits hf.fits
    rw [hnil, ofBody?_nil] at hbody
    cases hbody
  constructor
  · rw [linesOf_eq, hf.lines, texts_append, texts_cons (text_ne_nil_of_body hne e)]
    rfl
  · rw [linesOf_eq, hf.ofVisual_edited hv, texts_append,
      texts_cons (text_ne_nil_of_body (render_added_ne_nil hf.fits) e)]
    rfl

theorem linesOf_appended (t : Text) (hv : IsBody value) :
    Diff.linesOf (t ++ '\n' :: (fresh key value).render) =
      texts (terminate (ofVisual t)) ++ [(fresh key value).render] := by
  have hne : (fresh key value).render ≠ [] := render_added_ne_nil (fits_bare key)
  rw [linesOf_eq, ofVisual_appended t hv, texts_append, texts_cons (text_ne_nil_of_body hne _)]
  simp [text, Ending.text, texts]

/-! ### The script of a merge -/

/-- How many lines come and how many go when a key gets a value. -/
def lineCounts (key : KeyName) (t : Text) : Nat × Nat :=
  if (find? key.text t).isSome then (1, 1) else if t = [] ∨ t.getLast? = some '\n' then (2, 0) else (2, 1)

theorem FirstLine.between_edited (hf : FirstLine key t before k e after) (hv : ValueSource.OneLine value) :
    Script.counts (Script.between (Diff.linesOf t) (Diff.linesOf (result before k e after value))) = (1, 1) ∧
      ((Script.between (Diff.linesOf t) (Diff.linesOf (result before k e after value))).EndsOnPlace ↔
        ¬ Script.Slides (Diff.linesOf t) (Diff.linesOf (result before k e after value))) := by
  obtain ⟨hold, hnew⟩ := hf.linesOf_edited hv.body
  rw [hold, hnew]
  exact Script.between_one (fun heq => render_added_ne hf.fits hv (List.append_cancel_right heq).symm) _ _

/-- The line that a key gets is one that the text has not had. -/
theorem render_fresh_not_mem_linesOf (hf : find? key.text t = none) (hv : IsBody value) :
    (fresh key value).render ∉ Diff.linesOf t := by
  intro hmem
  rw [Diff.linesOf, List.mem_filter, List.mem_map] at hmem
  obtain ⟨⟨⟨b, e⟩, hl, heq⟩, -⟩ := hmem
  have hbody : IsBody (text ⟨b, e⟩) := heq ▸ isBody_fresh key hv
  obtain ⟨-, hending⟩ := isBody_append.1 hbody
  obtain rfl : e = .none := by
    cases e with
    | none => rfl
    | lf => simp [IsBody, Ending.text] at hending
    | crlf => simp [IsBody, Ending.text] at hending
    | cr => simp [IsBody, Ending.text] at hending
  obtain rfl : b = (fresh key value).render := by simpa [text, Ending.text] using heq
  have hnone := find?_eq_none_iff.1 hf _ hl
  rw [ofBody?_of_fits (fits_fresh key value)] at hnone
  cases hnone

theorem between_appended (hf : find? key.text t = none) (hv : IsBody value) :
    Script.counts (Script.between (Diff.linesOf t) (Diff.linesOf (t ++ '\n' :: (fresh key value).render))) =
        lineCounts key t ∧
      (Script.between (Diff.linesOf t) (Diff.linesOf (t ++ '\n' :: (fresh key value).render))).EndsOnPlace ∧
      (Diff.linesOf t).length < (Diff.linesOf (t ++ '\n' :: (fresh key value).render)).length := by
  have hnot := render_fresh_not_mem_linesOf hf hv
  rw [linesOf_appended t hv, lineCounts, hf, if_neg (by simp)]
  by_cases ht : t = [] ∨ t.getLast? = some '\n'
  · rw [if_pos ht, texts_terminate ht, List.append_assoc]
    obtain ⟨hcounts, hends⟩ := Script.between_behind (b := ['\n']) fun hlast => hnot (List.mem_of_getLast? hlast)
    exact ⟨hcounts, hends, by simp⟩
  · obtain ⟨hne, hlf⟩ := not_or.1 ht
    obtain ⟨front, l, hold, hnew⟩ := exists_linesOf_append_lf hne hlf
    rw [hold] at hnot ⊢
    rw [if_neg ht, hnew, List.append_assoc]
    have hother : l ≠ (fresh key value).render := fun heq => hnot (heq ▸ List.mem_append_right _ List.mem_cons_self)
    obtain ⟨hcounts, hends⟩ := Script.between_two (by simp : l ≠ l ++ ['\n']) hother front
    exact ⟨hcounts, hends, by simp⟩

/-- The script of a merge counts right, and only what slides is out of place. -/
theorem between_merged {result : Text} (hr : (mergeInsert t key value).apply t = .ok result)
    (hv : ValueSource.OneLine value) :
    Script.counts (Script.between (Diff.linesOf t) (Diff.linesOf result)) = lineCounts key t ∧
      ((Script.between (Diff.linesOf t) (Diff.linesOf result)).EndsOnPlace ↔
        ¬ Script.Slides (Diff.linesOf t) (Diff.linesOf result)) := by
  cases hf : find? key.text t with
  | none =>
    obtain rfl : t ++ '\n' :: (fresh key value).render = result :=
      Except.ok.inj ((apply_of_find?_eq_none hf value).symm.trans hr)
    obtain ⟨hcounts, hends, hlength⟩ := between_appended hf hv.body
    exact ⟨hcounts, iff_of_true hends fun hslides => absurd hslides.length_eq (Nat.ne_of_lt hlength)⟩
  | some p =>
    obtain ⟨n, k⟩ := p
    obtain ⟨before, e, after, hfl, -⟩ := exists_firstLine hf
    obtain rfl : FirstLine.result before k e after value = result := Except.ok.inj ((hfl.apply value).symm.trans hr)
    rw [lineCounts, hf, if_pos (by rfl)]
    exact hfl.between_edited hv

/-- A merge always changes the text. -/
theorem ne_of_merged {result : Text} (hr : (mergeInsert t key value).apply t = .ok result)
    (hv : ValueSource.OneLine value) : t ≠ result := by
  rintro rfl
  cases hf : find? key.text t with
  | none =>
    have heq := Except.ok.inj ((apply_of_find?_eq_none hf value).symm.trans hr)
    simp at heq
  | some p =>
    obtain ⟨n, k⟩ := p
    obtain ⟨before, e, after, hfl, -⟩ := exists_firstLine hf
    obtain ⟨hold, hnew⟩ := hfl.linesOf_edited hv.body
    rw [Except.ok.inj ((hfl.apply value).symm.trans hr), hold] at hnew
    have hline := (List.cons.inj (List.append_cancel_left hnew)).1
    exact render_added_ne hfl.fits hv (List.append_cancel_right hline).symm

end KeyLine

/-! ### The diff of an edit -/

theorem Patch.lineOf_mem {s : Script Text} {c : Change Text} (hc : c ∈ s) :
    lineOf c ∈ Script.old s ∨ lineOf c ∈ Script.new s := by
  cases c with
  | keep l => exact .inl (List.mem_filterMap.2 ⟨_, hc, rfl⟩)
  | delete l p => exact .inl (List.mem_filterMap.2 ⟨_, hc, rfl⟩)
  | insert l p => exact .inr (List.mem_filterMap.2 ⟨_, hc, rfl⟩)

theorem Diff.between?_of_ne {t t' : Text} (h : t ≠ t') (path : Text) : between? t t' path =
    some ⟨render path (Script.between (linesOf t) (linesOf t')),
      (Script.counts (Script.between (linesOf t) (linesOf t'))).1,
      (Script.counts (Script.between (linesOf t) (linesOf t'))).2⟩ := if_neg h

/-- The diff between two texts can be applied just if the ends of its script are in place. -/
theorem Patch.applied?_between_iff {path t t' : Text} :
    applied? path (Diff.render path (Script.between (Diff.linesOf t) (Diff.linesOf t'))) t = some t' ↔
      (Script.between (Diff.linesOf t) (Diff.linesOf t')).EndsOnPlace := by
  have hrows : ∀ c ∈ Script.between (Diff.linesOf t) (Diff.linesOf t'), IsRow (lineOf c) := by
    intro c hc
    have hmem := lineOf_mem hc
    rw [Script.old_between, Script.new_between] at hmem
    rcases hmem with hmem | hmem
    · exact isRow_of_mem_linesOf hmem
    · exact isRow_of_mem_linesOf hmem
  rw [applied?_render_iff hrows (Script.old_between _ _).symm, Script.new_between, flatten_linesOf]
  exact and_iff_left rfl

section Outcome

variable {t value : Text} {key : KeyName} {d : Draft} {r : RandomStream}

theorem Draft.IsMerge.diff_iff (h : d.IsMerge t key value r) (ho : d.original = t) (hv : ValueSource.OneLine value)
    (path : Text) :
    (d.outcome path).changed = true ∧ ∃ diff, (d.outcome path).diff = some diff ∧
      (diff.insertions, diff.deletions) = KeyLine.lineCounts key t ∧
      (Patch.applied? path diff.text t = some d.result ↔
        ¬ Script.Slides (Diff.linesOf t) (Diff.linesOf d.result)) := by
  have hne := KeyLine.ne_of_merged h.result hv
  have hdiff := Diff.between?_of_ne hne path
  obtain ⟨hcounts, hends⟩ := KeyLine.between_merged h.result hv
  subst ho
  exact ⟨bne_iff_ne.2 hne, _, hdiff, hcounts, Patch.applied?_between_iff.trans hends⟩

end Outcome

/-- A value that is added to a key of a file changes it, and the diff counts right: a line for the line of the key; two
lines behind a text that is empty or ends in LF; else two lines for the last one. Applied to the old text the diff gives
the new one, unless the line of the key comes out equal to the next line and is the first of the file or has only
such lines behind it. Then a header takes its numbers from where the line was found before it slid down. -/
theorem addValue_diff_iff (w : Workspace) (input : List UInt8) (q : AddRequest) (t : Text) (key : KeyName)
    (value : Text) (ht : w.readText q.path = .ok t) (hk : KeyName.ofText? q.key = some key)
    (hv : q.value.load w.tree input = .ok value) :
    ∃ (d : Draft) (diff : Diff), d.IsMerge t key value w.random ∧ w.addValue input q = w.finish q.path q.options d ∧
      (∀ o, (w.addValue input q).result = .ok o → o = d.outcome q.path) ∧
      (d.outcome q.path).changed = true ∧ (d.outcome q.path).diff = some diff ∧
      (diff.insertions, diff.deletions) = KeyLine.lineCounts key t ∧
      (Patch.applied? q.path diff.text t = some (d.outcome q.path).result ↔
        ¬ Script.Slides (Diff.linesOf t) (Diff.linesOf (d.outcome q.path).result)) := by
  obtain ⟨d, hd, hm⟩ := Draft.exists_ofMerge t key value w.random
  have hadd : w.addValue input q = w.finish q.path q.options d := by
    rw [Workspace.addValue, ht, hv, KeyName.eq_text_of_ofText? hk]
    show w.edit q.path q.options (Draft.ofMerge t key.text value w.random) = _
    rw [hd]
    rfl
  obtain ⟨hchanged, diff, hdiff, hcounts, happly⟩ :=
    hm.diff_iff (Draft.original_ofMerge hd) (ValueSource.oneLine_of_load hv) q.path
  exact ⟨d, diff, hm, hadd, fun o ho => Workspace.eq_outcome_of_finish (hadd ▸ ho), hchanged, hdiff, hcounts, happly⟩

/-- An LF behind a CR at the end of the text makes another line of the last one. -/
theorem addValue_diff_completed_cr :
    ∃ (d : Draft) (diff : Diff), (d.outcome "f".toList).result = "MTU = 1\nDNS=y\r\nTable = off".toList ∧
      (d.outcome "f".toList).diff = some diff ∧ (diff.insertions, diff.deletions) = (2, 1) ∧
      Patch.applied? "f".toList diff.text "MTU = 1\nDNS=y\r".toList =
        some "MTU = 1\nDNS=y\r\nTable = off".toList := by
  obtain ⟨d, diff, hm, -, -, -, hdiff, hcounts, happly⟩ := addValue_diff_iff
    ⟨⟨[(["f".toList], .file ⟨utf8 "MTU = 1\nDNS=y\r".toList, 0o600⟩)], []⟩, .cycle []⟩ []
    ⟨"f".toList, "Table".toList, .inline "off\n".toList, ⟨true, false⟩⟩ "MTU = 1\nDNS=y\r".toList
    ⟨"Table".toList, by decide, by decide⟩ "off".toList (by decide +kernel)
    (KeyName.ofText?_text ⟨"Table".toList, by decide, by decide⟩) (by decide)
  have hresult : (d.outcome "f".toList).result = "MTU = 1\nDNS=y\r\nTable = off".toList :=
    Except.ok.inj (hm.result.symm.trans (by decide))
  rw [hresult] at happly
  exact ⟨d, diff, hresult, hdiff, hcounts.trans (by decide), happly.2 fun h => absurd h.length_eq (by decide)⟩

/-- The hunk has two old lines, but its header counts one. -/
theorem addValue_diff_not_applied :
    ∃ (d : Draft) (diff : Diff),
      Draft.ofMerge "MTU = 1\nMTU = 1,2\n".toList "MTU".toList "2".toList (.cycle []) = .ok d ∧
      (d.outcome "wg0.conf".toList).diff = some diff ∧
      diff.text = "--- a/wg0.conf\n+++ b/wg0.conf\n@@ -1 +2 @@\n-MTU = 1\n MTU = 1,2\n+MTU = 1,2\n".toList ∧
      Patch.applied? "wg0.conf".toList diff.text "MTU = 1\nMTU = 1,2\n".toList = none := by
  obtain ⟨d, hd, hm⟩ := Draft.exists_ofMerge "MTU = 1\nMTU = 1,2\n".toList ⟨"MTU".toList, by decide, by decide⟩
    "2".toList (.cycle [])
  have hresult : d.result = "MTU = 1,2\nMTU = 1,2\n".toList := Except.ok.inj (hm.result.symm.trans (by decide))
  have hold : Diff.linesOf "MTU = 1\nMTU = 1,2\n".toList = ["MTU = 1\n".toList, "MTU = 1,2\n".toList] := by decide
  have hnew : Diff.linesOf "MTU = 1,2\nMTU = 1,2\n".toList = ["MTU = 1,2\n".toList, "MTU = 1,2\n".toList] := by
    decide
  have hscript : Script.between ["MTU = 1\n".toList, "MTU = 1,2\n".toList]
      ["MTU = 1,2\n".toList, "MTU = 1,2\n".toList] =
        [.delete "MTU = 1\n".toList 1, .keep "MTU = 1,2\n".toList, .insert "MTU = 1,2\n".toList 1] :=
    Script.between_shifted (by decide) [] 0 (by decide)
  refine ⟨d, ⟨"--- a/wg0.conf\n+++ b/wg0.conf\n@@ -1 +2 @@\n-MTU = 1\n MTU = 1,2\n+MTU = 1,2\n".toList, 1, 1⟩, hd, ?_,
    rfl, by decide +kernel⟩
  show Diff.between? d.original d.result _ = _
  rw [Draft.original_ofMerge hd, hresult, Diff.between?_of_ne (by decide), hold, hnew, hscript]
  decide +kernel

end TunnelConf
