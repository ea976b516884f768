import TunnelConf.Proofs.Document.Statements
import TunnelConf.Proofs.Scan.Matches

/-!
# The document that a scan describes

A scanner that passes over no line sees what a file says: a line is read as a form exactly by what the form
says (`Statement.ofLine?_render`). So the document can be made of the matches alone (`Document.ofMatches`).
Main statement: `parse_eq_ofMatches`, that document is the one that is read from the text.
-/

namespace TunnelConf

open Text Line

/-! ### Forms and what they say -/

namespace LineForm

/-- Comments and bare keys say nothing. -/
def statement? : LineForm → Option Statement
  | .comment .. => none
  | .header _ name _ => some (.header name)
  | .pair p => p.assignment.map fun a => .entry p.name (trim a.value)

end LineForm

theorem Pair.Fits.trimmed_name {p : Pair} (h : p.Fits) : Trimmed p.name := by
  constructor
  · intro c hc
    exact isSpace_of_isAlphanumeric (h.name c (List.mem_of_mem_head? hc))
  · intro c hc
    exact isSpace_of_isAlphanumeric (h.name c (List.mem_of_getLast? hc))

namespace Statement

theorem ofLine?_comment {lead : Text} (hlead : ∀ c ∈ lead, isBlank c = true) (m : Marker) (rest : Text) :
    ofLine? (LineForm.comment lead m rest).render = none := by
  have hm : Trimmed [m.char] := by cases m <;> exact ⟨by simp; decide, by simp [EndStops]; decide⟩
  have ht : trim (LineForm.comment lead m rest).render = m.char :: trimEndWhile isSpace rest := by
    rw [LineForm.render, trim_append_of_all (isSpace_of_blanks hlead)]
    exact trim_append_of_trimmed hm (by simp)
  rw [ofLine?_of_trim ht, if_pos (by cases m <;> decide)]

theorem ofLine?_header {lead name trail : Text} (hlead : ∀ c ∈ lead, isBlank c = true)
    (htrail : ∀ c ∈ trail, isBlank c = true) :
    ofLine? (LineForm.header lead name trail).render = some (.header name) := by
  refine ofLine?_eq_some_iff.2 (.header ?_)
  have hn : Trimmed ('[' :: (name ++ [']'])) := by
    constructor
    · simp; decide
    · rw [endStops_cons (by simp), endStops_append (by simp)]
      simp [EndStops]; decide
  have hr : (LineForm.header lead name trail).render = lead ++ ('[' :: (name ++ [']']) ++ trail) := by
    simp [LineForm.render]
  rw [hr, trim_append_of_all (isSpace_of_blanks hlead), trim_append_right_of_all (isSpace_of_blanks htrail),
    trim_eq_self_iff.2 hn]

theorem ofLine?_bare {p : Pair} (h : p.Fits) (ha : p.assignment = none) : ofLine? p.render = none := by
  have ht : trim p.render = p.name := by
    rw [Pair.render, ha, Option.elim_none, List.append_nil, List.append_assoc,
      trim_append_of_all (isSpace_of_blanks h.lead), trim_append_right_of_all (isSpace_of_blanks h.gap),
      trim_eq_self_iff.2 h.trimmed_name]
  refine ofLine?_eq_none_of_trim (fun hmem => ?_) fun c hc => ?_
  · rw [ht] at hmem
    exact absurd (h.name _ hmem) (by decide)
  · rw [ht] at hc
    rintro rfl
    exact absurd (h.name _ (List.mem_of_mem_head? hc)) (by decide)

theorem ofLine?_assigned {p : Pair} {a : Assignment} (h : p.Fits) (ha : p.assignment = some a) :
    ofLine? p.render = some (.entry p.name (trim a.value)) := by
  have hx := h.assignment a ha
  have hr : p.render = (p.lead ++ (p.name ++ p.gap)) ++ '=' :: (a.after ++ (a.value ++ a.trail)) := by
    simp [Pair.render, ha, Assignment.render]
  have hkey : trim (p.lead ++ (p.name ++ p.gap)) = p.name := by
    rw [trim_append_of_all (isSpace_of_blanks h.lead), trim_append_right_of_all (isSpace_of_blanks h.gap),
      trim_eq_self_iff.2 h.trimmed_name]
  have hvalue : trim (a.after ++ (a.value ++ a.trail)) = trim a.value := by
    rw [trim_append_of_all (isSpace_of_blanks hx.after), trim_append_right_of_all (isSpace_of_blanks hx.trail)]
  have hhead : ∀ c ∈ p.name.head?, isAlphanumeric c = true := fun c hc => h.name c (List.mem_of_mem_head? hc)
  refine ofLine?_eq_some_iff.2 (says_entry_iff.2 ⟨_, _, hr, ?_, hkey, hvalue, fun c hc => ?_, fun hc => ?_⟩)
  · simp only [List.mem_append]
    rintro (hmem | hmem | hmem)
    · exact absurd (h.lead _ hmem) (by decide)
    · exact absurd (h.name _ hmem) (by decide)
    · exact absurd (h.gap _ hmem) (by decide)
  · constructor
    · rintro rfl; exact absurd (hhead _ hc) (by decide)
    · rintro rfl; exact absurd (hhead _ hc) (by decide)
  · exact absurd (hhead _ hc) (by decide)

/-- A line with a form says what the form says. -/
theorem ofLine?_render {f : LineForm} (h : f.Fits) : ofLine? f.render = f.statement? := by
  cases f with
  | comment lead m rest => exact ofLine?_comment h m rest
  | header lead name trail => exact ofLine?_header h.1 h.2.2.2
  | pair p =>
    cases ha : p.assignment with
    | none =>
      rw [LineForm.statement?, ha]
      exact ofLine?_bare h ha
    | some a =>
      rw [LineForm.statement?, ha]
      exact ofLine?_assigned h ha

end Statement

/-! ### Texts without gaps -/

/-- The scanner passes over lines of white space only. -/
def Complete (t : Text) : Prop :=
  ∀ l ∈ LineRecord.ofText t, trim l.text ≠ [] → ∃ m ∈ scanLines t, m.offset = l.start

instance (t : Text) : Decidable (Complete t) :=
  inferInstanceAs (Decidable (∀ l ∈ LineRecord.ofText t, trim l.text ≠ [] → ∃ m ∈ scanLines t, m.offset = l.start))

theorem LineRecord.mem_ofText {t : Text} {before after : List Line} {l : Line}
    (h : ofPhysical t = before ++ l :: after) (hl : l.text ≠ []) :
    ofLine (size (textOf before)) l ∈ ofText t := by
  rw [ofText, h, placed_append, List.mem_filterMap]
  refine ⟨(size (textOf before), l), by simp [placed], ?_⟩
  exact if_neg (by simpa using hl)

/-- Lines with characters that start at the same place are the same. -/
theorem Line.eq_of_size_eq {b a c d : List Line} {l m : Line} (h : b ++ l :: a = c ++ m :: d)
    (hsize : size (textOf b) = size (textOf c)) (hl : l.text ≠ []) (hm : m.text ≠ []) : l = m := by
  have hpos₁ := size_pos_iff.2 hl
  have hpos₂ := size_pos_iff.2 hm
  rcases eq_or_append_of_append_eq h with heq | ⟨x, rfl⟩ | ⟨x, rfl⟩
  · exact heq
  · simp only [textOf_append, textOf_cons, size_append] at hsize
    omega
  · simp only [textOf_append, textOf_cons, size_append] at hsize
    omega

theorem Complete.trim_eq_nil {t : Text} (h : Complete t) (hcr : NoLoneCr t) {l : Line} (hl : l ∈ ofVisual t)
    (hf : LineForm.ofBody? l.body = none) : trim l.body = [] := by
  by_contra hne
  have hbody : l.body ≠ [] := by rintro hb; rw [hb] at hne; exact hne rfl
  have htext : l.text ≠ [] := fun ht => hbody (Line.body_eq_nil_of_text ht)
  obtain ⟨before, after, hls⟩ := List.append_of_mem hl
  obtain ⟨m, hm, hoff⟩ := h _ (LineRecord.mem_ofText ((ofPhysical_eq_ofVisual hcr).trans hls) htext) hne
  rw [LineMatch.scanLines_eq_ofLines] at hm
  obtain ⟨before', k, after', hks, hk, hoff'⟩ := LineMatch.exists_line_of_mem_ofLines hm
  have hktext : k.text ≠ [] := by
    intro hnil
    rw [Line.body_eq_nil_of_text hnil, LineForm.ofBody?_nil] at hk
    cases hk
  have hsize : size (textOf before) = size (textOf before') := by
    rw [Nat.zero_add] at hoff'
    exact hoff.symm.trans hoff'
  rw [Line.eq_of_size_eq (hls.symm.trans hks) hsize htext hktext, hk] at hf
  cases hf

/-! ### The document of some matches -/

namespace Document

/-- A header starts its section, also if it has been there before, and a pair with an equals sign gives its
value to the section that has been started last. -/
def Reader.see (r : Reader) (m : LineMatch) : Reader :=
  match m.form with
  | .comment .. => r
  | .header _ name _ => ⟨openSection name r.sections, some name⟩
  | .pair p =>
    match p.assignment, r.current with
    | some a, some name => { r with sections := pushEntry name p.name (trim a.value) r.sections }
    | _, _ => r

def ofMatches (ms : List LineMatch) : Document := ⟨(ms.foldl Reader.see ⟨[], none⟩).sections⟩

theorem Reader.see_eq {m : LineMatch} (h : m.form.Fits) (r : Reader) :
    r.see m = m.form.statement?.elim r r.step := by
  obtain ⟨n, f⟩ := m
  cases f with
  | comment lead marker rest => rfl
  | header lead name trail =>
    have hne : name.isEmpty = false := by simpa using h.2.2.1
    simp [see, LineForm.statement?, step, hne]
  | pair p =>
    cases ha : p.assignment with
    | none => simp [see, LineForm.statement?, ha]
    | some a =>
      cases hc : r.current with
      | none => simp [see, LineForm.statement?, ha, step, hc]
      | some name => simp [see, LineForm.statement?, ha, step, hc]

theorem ofStatements_filterMap {ms : List LineMatch} (h : ∀ m ∈ ms, m.form.Fits) :
    ofStatements (ms.filterMap fun m => m.form.statement?) = ofMatches ms := by
  have hfold : ∀ r, (ms.filterMap fun m => m.form.statement?).foldl Reader.step r = ms.foldl Reader.see r := by
    induction ms with
    | nil => exact fun _ => rfl
    | cons m ms ih =>
      obtain ⟨hm, hms⟩ := List.forall_mem_cons.1 h
      intro r
      rw [List.foldl_cons, Reader.see_eq hm, List.filterMap_cons]
      cases m.form.statement? with
      | none => exact ih hms r
      | some s => exact ih hms (r.step s)
  rw [ofStatements, hfold, ofMatches]

/-- In a text without lone CR in which the scanner passes over no line, both views find the same document. -/
theorem parse_eq_ofMatches (t : Text) (hcr : NoLoneCr t) (hlines : Complete t) :
    parse t = ofMatches (scanLines t) := by
  have hfits : ∀ m ∈ scanLines t, m.form.Fits := by
    intro m hm
    rw [LineMatch.scanLines_eq_ofLines] at hm
    obtain ⟨-, l, -, -, hf, -⟩ := LineMatch.exists_line_of_mem_ofLines hm
    exact LineForm.fits_of_ofBody? hf
  rw [← ofStatements_filterMap hfits, LineMatch.scanLines_eq_ofLines, LineMatch.filterMap_ofLines, parse_eq,
    ofPhysical_eq_ofVisual hcr]
  refine congrArg _ (List.filterMap_congr fun l hl => ?_)
  cases hf : LineForm.ofBody? l.body with
  | none => exact Statement.ofLine?_of_trim_nil (hlines.trim_eq_nil hcr hl hf)
  | some f =>
    obtain ⟨hr, hfit⟩ := LineForm.ofBody?_eq_some_iff.1 hf
    rw [← hr]
    exact Statement.ofLine?_render hfit

/-- White space that is no blank stands alone on a line and around a value, and a header comes twice. -/
theorem parse_eq_ofMatches_repeated :
    let t := "\u00a0\r\n[Peer]\r\n# DNS = 1\nDNS = 1 \nMTU\r\n[b]\n\t[Peer]\nDNS=\u00a02=\u0085\r\nDNS =".toList
    NoLoneCr t ∧ Complete t ∧ parse t = ofMatches (scanLines t) := by
  intro t
  have hcr : NoLoneCr t := by decide +kernel
  have hlines : Complete t := by decide +kernel
  exact ⟨hcr, hlines, parse_eq_ofMatches t hcr hlines⟩

end Document

end TunnelConf
