import TunnelConf.Edit.File
import TunnelConf.Proofs.Document.Statements
import TunnelConf.Proofs.Merge.Edit
import TunnelConf.Proofs.Position
import TunnelConf.Proofs.Scan.Annotations
import TunnelConf.Proofs.Scan.LineGroups

/-!
# Texts with CRLF

`crlf` puts CRLF in the place of each LF. In a text without CR this changes how lines end and nothing in
them (`ofVisual_crlf`), so each span covers what it covered and starts one byte later for each line before
it (`Span.InCrlf`), in the same line and column (`Span.InCrlf.position`). Main statement:
`crlf_keeps_meaning`.
-/

namespace TunnelConf

open Text Line

/-- The text with CRLF in the place of each LF. -/
def crlf (t : Text) : Text := t.flatMap fun c => if c = '\n' then ['\r', '\n'] else [c]

variable {t : Text}

@[simp] theorem crlf_nil : crlf [] = [] := rfl

@[simp] theorem crlf_append (a b : Text) : crlf (a ++ b) = crlf a ++ crlf b := List.flatMap_append

theorem crlf_lf (t : Text) : crlf ('\n' :: t) = '\r' :: '\n' :: crlf t := rfl

theorem crlf_cons_of_ne {c : Char} (hc : c ≠ '\n') (t : Text) : crlf (c :: t) = c :: crlf t := by
  simp [crlf, hc]

theorem crlf_of_not_mem (h : '\n' ∉ t) : crlf t = t := by
  induction t with
  | nil => rfl
  | cons c t ih =>
    obtain ⟨hc, ht⟩ := not_or.1 <| List.mem_cons.not.1 h
    rw [crlf_cons_of_ne (Ne.symm hc), ih ht]

theorem size_crlf (t : Text) : size (crlf t) = size t + t.count '\n' := by
  induction t with
  | nil => rfl
  | cons c t ih =>
    by_cases hc : c = '\n'
    · subst hc
      have hr : ('\r' : Char).utf8Size = 1 := rfl
      rw [crlf_lf, size_cons, size_cons, size_cons, List.count_cons_self, ih, hr]
      omega
    · rw [crlf_cons_of_ne hc, size_cons, size_cons, List.count_cons_of_ne hc, ih]
      omega

theorem count_crlf (t : Text) : (crlf t).count '\n' = t.count '\n' := by
  induction t with
  | nil => rfl
  | cons c t ih =>
    by_cases hc : c = '\n'
    · subst hc
      rw [crlf_lf, List.count_cons_of_ne (by decide), List.count_cons_self, List.count_cons_self, ih]
    · rw [crlf_cons_of_ne hc, List.count_cons_of_ne hc, List.count_cons_of_ne hc, ih]

theorem lastLine_crlf (t : Text) : (crlf t).lastLine = t.lastLine := by
  induction t using List.reverseRecOn with
  | nil => rfl
  | append_singleton t c ih =>
    by_cases hc : c = '\n'
    · subst hc
      have hlf : crlf (t ++ ['\n']) = crlf t ++ ['\r'] ++ ['\n'] := by rw [crlf_append]; simp [crlf]
      rw [hlf, lastLine_concat_lf, lastLine_concat_lf]
    · rw [crlf_append, crlf_cons_of_ne hc, crlf_nil, lastLine_concat_of_ne hc, lastLine_concat_of_ne hc, ih]

/-- What is written in front of an offset gives its position, and there lines end where they ended. -/
theorem Position.ofOffset_crlf (a b : Text) :
    ofOffset (crlf (a ++ b)) (size (crlf a)) = ofOffset (a ++ b) (size a) := by
  rw [crlf_append, ofOffset_append, ofOffset_append, count_crlf, lastLine_crlf]

/-! ### Lines -/

def Ending.toCrlf : Ending → Ending
  | .lf => .crlf
  | e => e

def Line.toCrlf (l : Line) : Line := ⟨l.body, l.ending.toCrlf⟩

theorem Line.map_toCrlf_prepend (c : Char) (ls : List Line) :
    (prepend c ls).map toCrlf = prepend c (ls.map toCrlf) := by
  cases ls <;> rfl

theorem ofVisual_crlf (h : '\r' ∉ t) : ofVisual (crlf t) = (ofVisual t).map toCrlf := by
  induction t with
  | nil => rfl
  | cons c t ih =>
    obtain ⟨hr, ht⟩ := not_or.1 <| List.mem_cons.not.1 h
    by_cases hc : c = '\n'
    · subst hc
      rw [crlf_lf, ofVisual, ofVisual, List.map_cons, ih ht]
      rfl
    · have hne : c ≠ '\r' ∧ c ≠ '\n' := ⟨Ne.symm hr, hc⟩
      rw [crlf_cons_of_ne hc, ofVisual_cons_of_ne hne, ofVisual_cons_of_ne hne, map_toCrlf_prepend, ih ht]

theorem noLoneCr_of_not_mem (h : '\r' ∉ t) : NoLoneCr t := by
  rintro a b rfl
  exact absurd (by simp) h

theorem noLoneCr_crlf (h : '\r' ∉ t) : NoLoneCr (crlf t) := by
  have hcr := noLoneCr_iff.1 (noLoneCr_of_not_mem h)
  rw [noLoneCr_iff, ofVisual_crlf h, List.map_map, List.forall_mem_map]
  rw [List.forall_mem_map] at hcr
  intro l hl
  have hne := hcr l hl
  show l.ending.toCrlf ≠ .cr
  cases he : l.ending <;> simp_all [Ending.toCrlf]

theorem Line.text_toCrlf {l : Line} (hb : IsBody l.body) (h : '\r' ∉ l.text) : l.toCrlf.text = crlf l.text := by
  obtain ⟨body, e⟩ := l
  have hbody : crlf body = body := crlf_of_not_mem hb.lf_not_mem
  simp only [text, toCrlf, crlf_append, hbody]
  cases e with
  | none => rfl
  | lf => rfl
  | crlf => exact absurd (by simp [text, Ending.text]) h
  | cr => exact absurd (by simp [text, Ending.text]) h

theorem text_toCrlf_of_mem (h : '\r' ∉ t) {l : Line} (hl : l ∈ ofVisual t) : l.toCrlf.text = crlf l.text := by
  refine text_toCrlf ((proper_ofVisual t).isBody l hl) fun hmem => h ?_
  rw [← textOf_ofVisual t]
  exact List.mem_flatMap.2 ⟨l, hl, hmem⟩

/-! ### Spans -/

/-- `s'` covers in the CRLF form of `t` the text that `s` covers in `t`, and starts as many bytes further on
as there are LFs before it. -/
structure Span.InCrlf (t : Text) (s s' : Span) : Prop where
  role : s'.role = s.role
  len : s'.len = s.len
  covered : ∃ before part after, t = before ++ (part ++ after) ∧ size before = s.start ∧ size part = s.len ∧
    s'.start = s.start + before.count '\n' ∧ slice? s'.start s'.len (crlf t) = some part

namespace Span.InCrlf

variable {s s' : Span}

/-- A part of a line is where the line is. -/
theorem of_slice? {body part : Text} (hbody : '\n' ∉ body) (hs : slice? s.start s.len body = some part)
    (before after : Text) :
    InCrlf (before ++ (body ++ after)) (s.shift (size before)) (s.shift (size (crlf before))) := by
  obtain ⟨x, y, rfl, hx, hlen⟩ := slice?_eq_some_iff.1 hs
  simp only [List.mem_append, not_or] at hbody
  obtain ⟨⟨hlfx, hlfpart⟩, hlfy⟩ := hbody
  have hcount : (before ++ x).count '\n' = before.count '\n' := by
    rw [List.count_append, List.count_eq_zero.2 hlfx, Nat.add_zero]
  refine ⟨rfl, rfl, before ++ x, part, y ++ after, by simp, ?_, hlen, ?_, ?_⟩
  · rw [size_append, hx]; rfl
  · show size (crlf before) + s.start = size before + s.start + _
    rw [hcount, size_crlf]
    omega
  · refine slice?_eq_some_iff.2 ⟨crlf before ++ x, y ++ crlf after, ?_, ?_, hlen⟩
    · simp [crlf_of_not_mem hlfx, crlf_of_not_mem hlfpart, crlf_of_not_mem hlfy]
    · rw [size_append, hx]; rfl

theorem position (h : InCrlf t s s') : Position.ofOffset (crlf t) s'.start = Position.ofOffset t s.start := by
  obtain ⟨before, part, after, rfl, hbefore, -, hstart, -⟩ := h.covered
  rw [hstart, ← hbefore, ← size_crlf, Position.ofOffset_crlf]

end Span.InCrlf

/-! ### Matches -/

namespace LineMatch

theorem spans_eq_map (n : Nat) (f : LineForm) : (mk n f).spans = (mk 0 f).spans.map (Span.shift n) := by
  cases f with
  | comment lead m rest => simp [spans_comment, Span.shift]
  | header lead name trail => simp [spans_header, Span.shift]
  | pair p =>
    obtain ⟨lead, name, gap, assignment⟩ := p
    cases assignment with
    | none => simp [spans, Pair.keySpan, Pair.valueSpan?, Span.shift]
    | some x => simp [spans_assigned, Span.shift]

theorem exists_slice?_of_mem_spans {f : LineForm} {s : Span} (h : s ∈ (mk 0 f).spans) :
    ∃ part, slice? s.start s.len f.render = some part := by
  cases f with
  | comment lead m rest =>
    rw [spans_comment, List.mem_singleton] at h
    subst h
    exact ⟨_, slice?_eq_some_iff.2 ⟨lead, [], by simp [LineForm.render], by simp, rfl⟩⟩
  | header lead name trail =>
    rw [spans_header, List.mem_singleton] at h
    subst h
    exact ⟨_, slice?_eq_some_iff.2 ⟨lead, trail, LineForm.render_header .., by simp, rfl⟩⟩
  | pair p =>
    obtain ⟨lead, name, gap, assignment⟩ := p
    cases assignment with
    | none =>
      obtain rfl := List.mem_singleton.1 h
      exact ⟨name, Scan.slice?_keySpan ⟨lead, name, gap, none⟩⟩
    | some x =>
      rw [spans_assigned] at h
      rcases List.mem_cons.1 h with rfl | h
      · exact ⟨name, slice?_eq_some_iff.2 ⟨lead, gap ++ x.render, by simp [LineForm.render, Pair.render],
          by simp, rfl⟩⟩
      · obtain rfl := List.mem_singleton.1 h
        exact ⟨x.value, slice?_eq_some_iff.2 ⟨lead ++ name ++ gap ++ '=' :: x.after, x.trail,
          by simp [LineForm.render_assigned], by simp, rfl⟩⟩

/-- `m'` is in the CRLF form of `t` the line that `m` is in `t`. -/
def InCrlf (t : Text) (m m' : LineMatch) : Prop :=
  ∃ before after, t = before ++ (m.form.render ++ after) ∧ IsBody m.form.render ∧
    m = ⟨size before, m.form⟩ ∧ m' = ⟨size (crlf before), m.form⟩

theorem forall₂_inCrlf {ls : List Line} (hbody : ∀ l ∈ ls, IsBody l.body)
    (htext : ∀ l ∈ ls, l.toCrlf.text = crlf l.text) (before : Text) :
    List.Forall₂ (InCrlf (before ++ textOf ls)) (ofLines (size before) ls)
      (ofLines (size (crlf before)) (ls.map toCrlf)) := by
  induction ls generalizing before with
  | nil => exact .nil
  | cons l ls ih =>
    obtain ⟨hl, hbody⟩ := List.forall_mem_cons.1 hbody
    obtain ⟨htl, htext⟩ := List.forall_mem_cons.1 htext
    have ih := ih hbody htext (before ++ l.text)
    rw [crlf_append, size_append, size_append, ← htl, List.append_assoc] at ih
    rw [List.map_cons, ofLines_cons, ofLines_cons]
    refine List.rel_append ?_ ih
    show List.Forall₂ _ _ ((LineForm.ofBody? l.body).map _).toList
    cases hf : LineForm.ofBody? l.body with
    | none => exact .nil
    | some f =>
      have hrender := LineForm.render_of_ofBody? hf
      exact .cons ⟨before, l.ending.text ++ textOf ls, by simp [hrender, text], hrender ▸ hl, rfl, rfl⟩ .nil

theorem scanLines_crlf (h : '\r' ∉ t) : List.Forall₂ (InCrlf t) (scanLines t) (scanLines (crlf t)) := by
  have := forall₂_inCrlf (proper_ofVisual t).isBody (fun l hl => text_toCrlf_of_mem h hl) []
  rwa [List.nil_append, textOf_ofVisual, ← ofVisual_crlf h, crlf_nil, size_nil, ← scanLines_eq_ofLines,
    ← scanLines_eq_ofLines] at this

variable {m m' : LineMatch}

theorem InCrlf.spans (h : InCrlf t m m') : List.Forall₂ (Span.InCrlf t) m.spans m'.spans := by
  obtain ⟨before, after, rfl, hbody, hm, rfl⟩ := h
  rw [hm, spans_eq_map (size before), spans_eq_map (size (crlf before)), List.forall₂_map_left_iff,
    List.forall₂_map_right_iff, List.forall₂_same]
  intro s hs
  obtain ⟨part, hpart⟩ := exists_slice?_of_mem_spans hs
  exact .of_slice? hbody.lf_not_mem hpart before after

end LineMatch

/-! ### Annotations -/

/-- `a'` says in the CRLF form of `t` of the same piece of text what `a` says in `t`. -/
structure Annotation.AgreesInCrlf (t : Text) (a a' : Annotation) : Prop where
  severity : a'.severity = a.severity
  finding : a'.finding = a.finding
  span : a.span.InCrlf t a'.span

open Annotation (AgreesInCrlf)

theorem LineMatch.InCrlf.annotate {m m' : LineMatch} (h : InCrlf t m m') :
    List.Forall₂ (AgreesInCrlf t) (Scan.annotate m) (Scan.annotate m') := by
  obtain ⟨before, after, rfl, hbody, hm, rfl⟩ := h
  rw [hm, Scan.annotate_eq_map (size before), Scan.annotate_eq_map (size (crlf before)),
    List.forall₂_map_left_iff, List.forall₂_map_right_iff, List.forall₂_same]
  intro a ha
  obtain ⟨part, hpart⟩ := Scan.exists_covered_of_mem_annotate ha
  exact ⟨rfl, rfl, .of_slice? hbody.lf_not_mem hpart before after⟩

theorem Scan.annotations_crlf (h : '\r' ∉ t) (r r' : RandomStream) :
    List.Forall₂ (AgreesInCrlf t) (ofText t r).1.annotations (ofText (crlf t) r').1.annotations := by
  rw [annotations_ofText, annotations_ofText]
  exact List.rel_flatMap (LineMatch.scanLines_crlf h) fun _ _ hm => hm.annotate

/-- What a report says of a finding, the offset aside. -/
def Located.view (x : Located) : Position × Nat × Severity × Finding :=
  (x.position, x.span.len, x.severity, x.finding)

theorem CheckReport.map_view_located {as as' : List Annotation} (h : List.Forall₂ (AgreesInCrlf t) as as')
    (path path' : Text) {scan scan' : Scan} (hs : scan.annotations = as) (hs' : scan'.annotations = as') :
    (CheckReport.mk path' (crlf t) scan').located.map Located.view =
      (CheckReport.mk path t scan).located.map Located.view := by
  simp only [located, hs, hs']
  clear hs hs'
  induction h with
  | nil => rfl
  | @cons a a' as as' ha _ ih =>
    rw [List.filterMap_cons, List.filterMap_cons, ha.finding]
    cases a.finding with
    | none => exact ih
    | some f =>
      simp only [Option.map_some, List.map_cons, Located.view, ha.span.position, ha.span.len, ha.severity]
      exact congrArg _ ih

/-! ### Sections and edits -/

theorem Document.parse_crlf (h : '\r' ∉ t) : parse (crlf t) = parse t := by
  rw [parse_eq, parse_eq, ofPhysical_eq_ofVisual (noLoneCr_crlf h), ofPhysical_eq_ofVisual (noLoneCr_of_not_mem h),
    ofVisual_crlf h, List.filterMap_map]
  rfl

theorem Line.edited_crlf {f : Text → Option Text} (hf : Rewrites f) (h : '\r' ∉ t) (he : '\r' ∉ edited f t) :
    edited f (crlf t) = crlf (edited f t) := by
  rw [← textOf_ofVisual (crlf (edited f t)), ofVisual_crlf he, ofVisual_edited hf, edited, ofVisual_crlf h]
  exact congrArg textOf (editFirst_map_ending Ending.toCrlf (ofVisual t))

theorem KeyLine.FirstLine.not_mem_result {key : KeyName} {before after : List Line} {k : KeyLine} {e : Ending}
    (hf : FirstLine key t before k e after) {value : Text} (hv : IsBody value) (h : '\r' ∉ t) :
    '\r' ∉ result before k e after value := by
  rw [hf.text_eq] at h
  simp only [List.mem_append, not_or] at h
  obtain ⟨⟨hbefore, -⟩, he, hafter⟩ := h
  have hadded : '\r' ∉ (k.added value).render := (isBody_added hf.isBody hv).cr_not_mem
  simp [result, hbefore, hadded, he, hafter]

/-! ### Main statement -/

/-- CRLF means what LF means: the scan recognises the same lines with the same parts, the report lists the same
findings in the same lines and columns, the sections are the same, and a value merged into a line of a key
gives the same text. -/
theorem crlf_keeps_meaning (t : Text) (h : '\r' ∉ t) :
    List.Forall₂ (fun m m' => m'.form = m.form ∧ List.Forall₂ (Span.InCrlf t) m.spans m'.spans)
      (scanLines t) (scanLines (crlf t)) ∧
    (∀ path path' r r', (CheckReport.mk path' (crlf t) (Scan.ofText (crlf t) r').1).located.map Located.view =
      (CheckReport.mk path t (Scan.ofText t r).1).located.map Located.view) ∧
    Document.parse (crlf t) = Document.parse t ∧
    ∀ key : KeyName, KeyLine.find? key.text t ≠ none → ∀ value, IsBody value →
      ∃ u, (mergeInsert t key value).apply t = .ok u ∧
        (mergeInsert (crlf t) key value).apply (crlf t) = .ok (crlf u) := by
  refine ⟨?_, fun path path' r r' => ?_, Document.parse_crlf h, fun key hkey value hv => ?_⟩
  · refine (LineMatch.scanLines_crlf h).imp fun m m' hm => ⟨?_, hm.spans⟩
    obtain ⟨-, -, -, -, -, rfl⟩ := hm
    rfl
  · exact CheckReport.map_view_located (Scan.annotations_crlf h r r') path path' rfl rfl
  · obtain ⟨⟨n, k⟩, hk⟩ := Option.ne_none_iff_exists'.1 hkey
    obtain ⟨before, e, after, hf, -⟩ := KeyLine.exists_firstLine hk
    have hresult := hf.not_mem_result hv h
    rw [hf.result_eq_edited value] at hresult
    have hlive : KeyLine.find? key.text (crlf t) ≠ none := by
      rw [ne_eq, KeyLine.find?_eq_none_iff] at hkey ⊢
      rwa [ofVisual_crlf h, List.forall_mem_map]
    refine ⟨_, KeyLine.apply_of_find?_ne_none hkey value, ?_⟩
    rw [KeyLine.apply_of_find?_ne_none hlive value, edited_crlf (KeyLine.rewrites_adding key hv) h hresult]

/-- An empty value and trailing blanks right in front of the line endings. -/
theorem crlf_keeps_meaning_empty_value :
    let t := "[peers]\nMTU =\n\nDNS \t\nMTU = ²".toList
    List.Forall₂ (fun m m' => m'.form = m.form ∧ List.Forall₂ (Span.InCrlf t) m.spans m'.spans)
      (scanLines t) (scanLines (crlf t)) ∧
    (CheckReport.mk [] (crlf t) (Scan.ofText (crlf t) (.cycle [7])).1).located.map Located.view =
      (CheckReport.mk [] t (Scan.ofText t (.cycle [7])).1).located.map Located.view ∧
    Document.parse (crlf t) = Document.parse t ∧
    ∃ u, (mergeInsert t ⟨"dns".toList, by decide, by decide⟩ "1.1.1.1".toList).apply t = .ok u ∧
      (mergeInsert (crlf t) ⟨"dns".toList, by decide, by decide⟩ "1.1.1.1".toList).apply (crlf t) =
        .ok (crlf u) := by
  intro t
  obtain ⟨hmatches, hlocated, hparse, hmerge⟩ := crlf_keeps_meaning t (by decide)
  exact ⟨hmatches, hlocated [] [] (.cycle [7]) (.cycle [7]), hparse,
    hmerge ⟨"dns".toList, by decide, by decide⟩ (by decide) "1.1.1.1".toList (by simp [IsBody])⟩

end TunnelConf
