import TunnelConf.Proofs.Document.Scanned
import TunnelConf.Proofs.Pattern.Search
import TunnelConf.Proofs.Position
import TunnelConf.Proofs.Scan.Findings

/-!
# The numbers of lines

A line of the scanner starts wherever its anchor holds (`atLineStart_iff`). Records and positions know no
lone CR: they take a line that ends in one together with the line behind it (`ofPhysical_textOf`). So a
position counts the lines of the scanner but for those (`Position.line_ofOffset`), and its line is that of the
scanner just where no line in front ends in a lone CR (`lineNumbers_of_matches`).
-/

namespace TunnelConf

open Text Line

variable {t : Text} {before after ls : List Line} {l : Line} {m : LineMatch}

namespace Line

/-! ### Where the scanner's lines start -/

/-- Only CRLF can be cut in two. -/
theorem eq_of_ending_eq_append {e : Ending} {a b : Text} (h : e.text = a ++ b) (ha : a ≠ []) (hb : b ≠ []) :
    a = ['\r'] ∧ b = ['\n'] := by
  obtain ⟨c, a, rfl⟩ := List.exists_cons_of_ne_nil ha
  obtain ⟨d, b, rfl⟩ := List.exists_cons_of_ne_nil hb
  cases e with
  | none => cases h
  | lf => simp [Ending.text] at h
  | cr => simp [Ending.text] at h
  | crlf =>
    obtain ⟨rfl, htail⟩ := List.cons.inj h
    rcases List.singleton_eq_append_iff.1 htail with ⟨rfl, hd⟩ | ⟨-, hd⟩
    · exact ⟨rfl, hd⟩
    · cases hd

/-- Inside a line, its ending included, no line starts. -/
theorem not_atLineStart_of_text_eq {a b rest : Text} (hl : IsBody l.body) (h : l.text = a ++ b) (ha : a ≠ [])
    (hb : b ≠ []) : ¬ Spot.AtLineStart a (b ++ rest) := by
  rcases List.append_eq_append_iff.1 h with ⟨x, rfl, hx⟩ | ⟨x, hx, -⟩
  · by_cases hne : x = []
    · subst hne
      rw [List.append_nil] at ha ⊢
      exact Pattern.not_atLineStart_append (a := []) ha hl
    · obtain ⟨rfl, rfl⟩ := eq_of_ending_eq_append hx hne hb
      intro hstart
      rcases hstart '\r' (by simp) with hc | ⟨-, hc⟩
      · exact absurd hc (by decide)
      · exact hc rfl
  · rw [hx, isBody_append] at hl
    exact Pattern.not_atLineStart_append (a := []) ha hl.1

theorem atLineStart_of_append {a b x : Text} (h : Spot.AtLineStart (a ++ x) b) : Spot.AtLineStart x b := by
  intro c hc
  refine h c ?_
  rw [List.getLast?_append_of_ne_nil _ (by rintro rfl; cases hc)]
  exact hc

theorem Proper.of_append (h : Proper (before ++ l :: after)) : Proper (l :: after) := by
  induction before with
  | nil => exact h
  | cons k before ih =>
    cases before with
    | nil => exact h.2.2
    | cons n before => exact ih h.2.2

/-- Behind all lines but the last a line starts. -/
theorem Proper.atLineStart (h : Proper (before ++ l :: after)) :
    Spot.AtLineStart (textOf before) (textOf (l :: after)) := by
  rcases List.eq_nil_or_concat' before with rfl | ⟨init, k, rfl⟩
  · intro c hc; cases hc
  · rw [List.append_assoc] at h
    rw [textOf_append, textOf_cons, textOf_nil, List.append_nil]
    exact Pattern.atLineStart_of_precedes h.of_append.2.1 h.of_append.2.2

/-- Where a line starts the lines can be cut as well. -/
theorem Proper.exists_append_of_atLineStart {a b : Text} (h : Proper ls) (hab : textOf ls = a ++ b)
    (hstart : Spot.AtLineStart a b) : ∃ before l after, ls = before ++ l :: after ∧ textOf before = a := by
  induction ls generalizing a with
  | nil => exact h.elim
  | cons l ls ih =>
    by_cases ha : a = []
    · exact ⟨[], l, ls, rfl, ha.symm⟩
    · have hl : IsBody l.body := h.isBody l (by simp)
      obtain ⟨x, rfl, hx⟩ : ∃ x, a = l.text ++ x ∧ textOf ls = x ++ b := by
        rw [textOf_cons] at hab
        rcases List.append_eq_append_iff.1 hab with hpast | ⟨x, hx, rfl⟩
        · exact hpast
        · have hxn : x = [] := by
            by_contra hxn
            exact not_atLineStart_of_text_eq hl hx ha hxn hstart
          rw [hxn, List.append_nil] at hx
          exact ⟨[], by rw [hx, List.append_nil], by rw [hxn]; rfl⟩
      cases ls with
      | nil =>
        -- the last line has no ending, so the text does not go on behind it
        obtain ⟨rfl, rfl⟩ := List.append_eq_nil_iff.1 hx.symm
        rw [List.append_nil, Line.text, h.2, Ending.text, List.append_nil] at ha hstart
        exact absurd hstart (Pattern.not_atLineStart_append (a := []) ha hl)
      | cons k ks =>
        obtain ⟨before, n, after, hks, hbefore⟩ := ih h.2.2 hx (atLineStart_of_append hstart)
        exact ⟨l :: before, n, after, by rw [hks]; rfl, by rw [textOf_cons, hbefore]⟩

/-- The anchor of the scanner for the start of a line holds just where one of its lines starts. -/
theorem atLineStart_iff {a b : Text} (h : t = a ++ b) :
    Look.holds (Spot.between a b) .anyLineStart = true ↔
      ∃ before l after, ofVisual t = before ++ l :: after ∧ textOf before = a := by
  rw [Spot.holds_anyLineStart_iff]
  constructor
  · exact (proper_ofVisual t).exists_append_of_atLineStart ((textOf_ofVisual t).trans h)
  · rintro ⟨before, l, after, hls, rfl⟩
    have hb : textOf (l :: after) = b := by
      have ht := textOf_ofVisual t
      rw [hls, h, textOf_append] at ht
      exact List.append_cancel_left ht
    rw [← hb]
    exact (hls ▸ proper_ofVisual t : Proper (before ++ l :: after)).atLineStart

/-! ### Lines that end at LF and CRLF only -/

/-- The lines, each that ends in a lone CR taken together with the one behind it. -/
def joinCr : List Line → List Line
  | [] => []
  | l :: ls =>
    if l.ending = .cr then
      match joinCr ls with
      | [] => [l]
      | m :: ms => { m with body := l.text ++ m.body } :: ms
    else l :: joinCr ls

theorem joinCr_cons_of_ne (h : l.ending ≠ .cr) (ls : List Line) : joinCr (l :: ls) = l :: joinCr ls := by
  rw [joinCr, if_neg h]

theorem joinCr_cons_of_cr {k : Line} {ks : List Line} (h : l.ending = .cr) (hls : joinCr ls = k :: ks) :
    joinCr (l :: ls) = { k with body := l.text ++ k.body } :: ks := by
  rw [joinCr, if_pos h, hls]

theorem exists_joinCr_cons (l : Line) (ls : List Line) : ∃ k ks, joinCr (l :: ls) = k :: ks := by
  rw [joinCr]
  split
  · split
    · exact ⟨_, _, rfl⟩
    · exact ⟨_, _, rfl⟩
  · exact ⟨_, _, rfl⟩

theorem ofPhysical_body_append {b : Text} (hb : IsBody b) (h : ofPhysical t = l :: ls) :
    ofPhysical (b ++ t) = { l with body := b ++ l.body } :: ls := by
  induction b with
  | nil => exact h
  | cons c b ih =>
    obtain ⟨hc, hb⟩ := isBody_cons.1 hb
    rw [List.cons_append, ofPhysical.eq_4 c _ (by simpa using hc.2) (by simp [hc.1]), ih hb]
    rfl

theorem ofPhysical_cr_of_ne (ht : t.head? ≠ some '\n') (h : ofPhysical t = l :: ls) :
    ofPhysical ('\r' :: t) = { l with body := '\r' :: l.body } :: ls := by
  rw [ofPhysical.eq_4 '\r' t (by decide) fun u _ hu => ht (by rw [hu]; rfl), h]
  rfl

/-- Records know LF and CRLF only: to them a line that ends in a lone CR goes on behind it. -/
theorem ofPhysical_textOf (h : Proper ls) : ofPhysical (textOf ls) = joinCr ls := by
  induction ls with
  | nil => exact h.elim
  | cons l ls ih =>
    cases ls with
    | nil =>
      have hnil : ofPhysical [] = [⟨[], .none⟩] := rfl
      have hlast : ofPhysical l.body = [⟨l.body, .none⟩] := by simpa using ofPhysical_body_append h.1 hnil
      obtain ⟨body, e⟩ := l
      obtain rfl : e = .none := h.2
      simpa [joinCr, Line.text, Ending.text] using hlast
    | cons k ks =>
      obtain ⟨hl, hp, hks⟩ := h
      have hrest := ih hks
      have hbreak : ∀ e : Ending, e = .lf ∨ e = .crlf →
          ofPhysical (e.text ++ textOf (k :: ks)) = ⟨[], e⟩ :: joinCr (k :: ks) := by
        rintro e (rfl | rfl)
        · rw [← hrest]; rfl
        · rw [← hrest]; rfl
      rw [textOf_cons, Line.text, List.append_assoc]
      cases he : l.ending with
      | none => exact absurd he hp.1
      | lf =>
        have hne : l.ending ≠ .cr := by rw [he]; decide
        rw [ofPhysical_body_append hl (hbreak .lf (.inl rfl)), joinCr_cons_of_ne hne, ← he, List.append_nil]
      | crlf =>
        have hne : l.ending ≠ .cr := by rw [he]; decide
        rw [ofPhysical_body_append hl (hbreak .crlf (.inr rfl)), joinCr_cons_of_ne hne, ← he, List.append_nil]
      | cr =>
        obtain ⟨q, qs, hq⟩ := exists_joinCr_cons k ks
        have hhead : (textOf (k :: ks)).head? ≠ some '\n' := head?_textOf_ne hks fun hk => hp.2 ⟨he, hk⟩
        have hcr : ofPhysical ('\r' :: textOf (k :: ks)) = { q with body := '\r' :: q.body } :: qs :=
          ofPhysical_cr_of_ne hhead (hrest.trans hq)
        rw [joinCr_cons_of_cr he hq]
        show ofPhysical (l.body ++ '\r' :: textOf (k :: ks)) = _
        rw [ofPhysical_body_append hl hcr, Line.text, he]
        simp [Ending.text]

theorem ofPhysical_eq (t : Text) : ofPhysical t = joinCr (ofVisual t) := by
  conv_lhs => rw [← textOf_ofVisual t]
  exact ofPhysical_textOf (proper_ofVisual t)

/-- A line is a part of one of the joined lines. -/
theorem exists_joinCr_eq (before : List Line) (l : Line) (after : List Line) :
    ∃ ps p qs x y, joinCr (before ++ l :: after) = ps ++ p :: qs ∧ p.body = x ++ (l.body ++ y) ∧
      textOf before = textOf ps ++ x := by
  induction before with
  | nil =>
    by_cases hl : l.ending = .cr
    · cases hafter : joinCr after with
      | nil =>
        refine ⟨[], l, [], [], [], ?_, by simp, rfl⟩
        rw [List.nil_append, joinCr, if_pos hl, hafter, List.nil_append]
      | cons k ks => exact ⟨[], _, ks, [], l.ending.text ++ k.body, joinCr_cons_of_cr hl hafter, by simp [Line.text], rfl⟩
    · exact ⟨[], l, joinCr after, [], [], joinCr_cons_of_ne hl after, by simp, rfl⟩
  | cons k before ih =>
    obtain ⟨ps, p, qs, x, y, hjoin, hbody, hbefore⟩ := ih
    rw [List.cons_append, textOf_cons, hbefore]
    by_cases hk : k.ending = .cr
    · cases ps with
      | nil => exact ⟨[], _, qs, k.text ++ x, y, joinCr_cons_of_cr hk hjoin, by simp [hbody], by simp⟩
      | cons q ps => exact ⟨_ :: ps, p, qs, x, y, joinCr_cons_of_cr hk hjoin, hbody, by simp [Line.text]⟩
    · exact ⟨k :: ps, p, qs, x, y, by rw [joinCr_cons_of_ne hk, hjoin]; rfl, hbody, by simp⟩

/-! ### How many lines there are in front -/

/-- How many of some lines end in a lone CR. -/
def loneCrs (ls : List Line) : Nat := ls.countP fun l => l.ending = .cr

theorem loneCrs_eq_zero_iff : loneCrs ls = 0 ↔ ∀ l ∈ ls, l.ending ≠ .cr := by
  rw [loneCrs, List.countP_eq_zero]
  simp

theorem loneCrs_eq_length_iff : loneCrs ls = ls.length ↔ ∀ l ∈ ls, l.ending = .cr := by
  rw [loneCrs, List.countP_eq_length]
  simp

/-- Each line in front of another one adds an LF, unless it ends in a lone CR. -/
theorem Proper.count_textOf (h : Proper (before ++ l :: after)) :
    (textOf before).count '\n' + loneCrs before = before.length := by
  induction before with
  | nil => rfl
  | cons k before ih =>
    obtain ⟨n, ns, hn⟩ : ∃ n ns, before ++ l :: after = n :: ns :=
      List.exists_cons_of_ne_nil (by simp)
    rw [List.cons_append, hn] at h
    have hrest := ih (by rw [hn]; exact h.2.2)
    have hbody : k.body.count '\n' = 0 := List.count_eq_zero.2 h.1.lf_not_mem
    have hcons : loneCrs (k :: before) = loneCrs before + if k.ending = .cr then 1 else 0 := by
      simp [loneCrs, List.countP_cons]
    rw [textOf_cons, List.count_append, Line.text, List.count_append, hbody, hcons, List.length_cons]
    cases he : k.ending with
    | none => exact absurd he h.2.1.1
    | lf => simp [Ending.text]; omega
    | crlf => simp [Ending.text]; omega
    | cr => simp [Ending.text]; omega

end Line

/-- The line of a position in a line of the scanner. -/
theorem Position.line_ofOffset {u v : Text} (h : ofVisual t = before ++ l :: after) (hl : l.body = u ++ v) :
    (ofOffset t (size (textOf before) + size u)).line + loneCrs before = before.length + 1 := by
  have hp := proper_ofVisual t
  rw [h] at hp
  have hbody : IsBody l.body := hp.isBody l (by simp)
  have hu : u.count '\n' = 0 := by
    rw [hl, isBody_append] at hbody
    exact List.count_eq_zero.2 hbody.1.lf_not_mem
  have ht : t = (textOf before ++ u) ++ (v ++ (l.ending.text ++ textOf after)) := by
    have ht := textOf_ofVisual t
    rw [h, textOf_append, textOf_cons, Line.text, hl] at ht
    simpa using ht.symm
  have hcount := hp.count_textOf
  conv_lhs => rw [ht]
  rw [← size_append, ofOffset_append, List.count_append, hu]
  show _ + 0 + 1 + _ = _
  omega

/-! ### The lines of matches -/

namespace LineMatch

/-- The line of the match `m` of `t` comes behind the lines `before`. -/
def StandsBehind (t : Text) (before : List Line) (m : LineMatch) : Prop :=
  ∃ l after, ofVisual t = before ++ l :: after ∧ LineForm.ofBody? l.body = some m.form ∧
    m.offset = size (textOf before)

/-- All of the match is in the text of the record. -/
def LiesIn (m : LineMatch) (r : LineRecord) : Prop :=
  ∃ i, slice? i (size m.form.render) r.text = some m.form.render ∧ m.offset = r.start + i

theorem exists_standsBehind (h : m ∈ scanLines t) : ∃ before, m.StandsBehind t before := by
  rw [scanLines_eq_ofLines] at h
  obtain ⟨before, l, after, hls, hf, hoff⟩ := exists_line_of_mem_ofLines h
  exact ⟨before, l, after, hls, hf, by rw [hoff, Nat.zero_add]⟩

theorem StandsBehind.mem (h : m.StandsBehind t before) : m ∈ scanLines t := by
  obtain ⟨l, after, hls, hf, hoff⟩ := h
  rw [scanLines_of_lines hls, hf, ← hoff]
  simp

/-- Matches are on different lines of the scanner. -/
theorem pairwise_standsBehind (t : Text) : (scanLines t).Pairwise fun m m' =>
    ∃ before l mid, m.StandsBehind t before ∧ m'.StandsBehind t (before ++ l :: mid) := by
  suffices h : ∀ before ls, ofVisual t = before ++ ls → (ofLines (size (textOf before)) ls).Pairwise fun m m' =>
      ∃ before l mid, m.StandsBehind t before ∧ m'.StandsBehind t (before ++ l :: mid) by
    rw [scanLines_eq_ofLines]
    exact h [] _ rfl
  intro before ls hls
  induction ls generalizing before with
  | nil => exact .nil
  | cons l ls ih =>
    have hrest := ih (before ++ [l]) (by rw [hls, List.append_assoc]; rfl)
    rw [textOf_append, textOf_cons, textOf_nil, List.append_nil, size_append] at hrest
    rw [ofLines_cons]
    cases hf : LineForm.ofBody? l.body with
    | none => exact hrest
    | some f =>
      refine .cons (fun m' hm' => ?_) hrest
      obtain ⟨mid, k, after, rfl, hk, hoff⟩ := exists_line_of_mem_ofLines hm'
      refine ⟨before, l, mid, ⟨l, _, hls, hf, rfl⟩, k, after, by rw [hls]; simp, hk, ?_⟩
      rw [hoff, textOf_append, textOf_cons, size_append, size_append, Nat.add_assoc]

/-- A match is in the text of one record, though the record may hold several lines of the scanner. -/
theorem StandsBehind.exists_record (h : m.StandsBehind t before) : ∃ r ∈ LineRecord.ofText t, m.LiesIn r := by
  obtain ⟨l, after, hls, hf, hoff⟩ := h
  obtain ⟨ps, p, qs, x, y, hjoin, hbody, hbefore⟩ := exists_joinCr_eq before l after
  have hne : l.body ≠ [] := by intro hb; rw [hb, LineForm.ofBody?_nil] at hf; cases hf
  have hp : p.text ≠ [] := by rw [Line.text, hbody]; simp [hne]
  have hr : LineRecord.ofLine (size (textOf ps)) p ∈ LineRecord.ofText t := by
    rw [← hls, ← ofPhysical_eq] at hjoin
    exact LineRecord.mem_ofText hjoin hp
  refine ⟨_, hr, size x, ?_, by rw [hoff, hbefore, size_append]; rfl⟩
  rw [LineForm.render_of_ofBody? hf]
  show slice? (size x) (size l.body) p.body = some l.body
  rw [hbody]
  exact slice?_append x l.body y

theorem StandsBehind.line_of_mem_annotate (h : m.StandsBehind t before) {a : Annotation}
    (ha : a ∈ Scan.annotate m) :
    (Position.ofOffset t a.span.start).line + loneCrs before = before.length + 1 := by
  obtain ⟨l, after, hls, hf, hoff⟩ := h
  obtain ⟨i, u, hu, hstart⟩ := Scan.exists_slice?_of_mem_annotate ha
  rw [LineForm.render_of_ofBody? hf] at hu
  obtain ⟨x, y, hbody, rfl, -⟩ := slice?_eq_some_iff.1 hu
  rw [hstart, hoff]
  exact Position.line_ofOffset hls (by rw [hbody, List.append_assoc])

/-- The start of a match is that of one of its annotations. -/
theorem exists_annotate_span (m : LineMatch) : ∃ a ∈ Scan.annotate m, a.span = m.span := by
  obtain ⟨n, f⟩ := m
  cases f with
  | comment lead marker rest => exact ⟨_, List.mem_singleton.2 rfl, rfl⟩
  | header lead name trail =>
    simp only [Scan.annotate]
    split
    · exact ⟨_, List.mem_singleton.2 rfl, rfl⟩
    · exact ⟨_, List.mem_singleton.2 rfl, rfl⟩
  | pair p => exact ⟨_, Scan.annotateKey_mem n p, Scan.span_annotateKey n p⟩

theorem StandsBehind.line_span (h : m.StandsBehind t before) :
    (Position.ofOffset t m.span.start).line + loneCrs before = before.length + 1 := by
  obtain ⟨a, ha, hspan⟩ := m.exists_annotate_span
  rw [← hspan]
  exact h.line_of_mem_annotate ha

/-- Two matches have the same line number just where no line from the first up to the second has an LF. -/
theorem StandsBehind.line_eq_iff {m' : LineMatch} {mid : List Line} (h : m.StandsBehind t before)
    (h' : m'.StandsBehind t (before ++ mid)) :
    (Position.ofOffset t m.span.start).line = (Position.ofOffset t m'.span.start).line ↔
      ∀ k ∈ mid, k.ending = .cr := by
  have hline := h.line_span
  have hline' := h'.line_span
  rw [loneCrs, List.countP_append, ← loneCrs, ← loneCrs, List.length_append] at hline'
  rw [← loneCrs_eq_length_iff]
  omega

end LineMatch

/-! ### Main statement -/

/-- Line numbers follow the lines of the scanner: no two matches have the same, each match is in the text of a
record, and a match has the number of the line it is on. -/
structure FollowsScanner (t : Text) : Prop where
  apart : (scanLines t).Pairwise fun m m' =>
    (Position.ofOffset t m.span.start).line ≠ (Position.ofOffset t m'.span.start).line
  inside : ∀ m ∈ scanLines t, ∃ r ∈ LineRecord.ofText t, m.LiesIn r
  number : ∀ (m : LineMatch) (before : List Line), m.StandsBehind t before →
    (Position.ofOffset t m.span.start).line = before.length + 1

theorem followsScanner_iff : FollowsScanner t ↔
    ∀ (m : LineMatch) (before : List Line), m.StandsBehind t before → ∀ l ∈ before, l.ending ≠ .cr := by
  constructor
  · intro h m before hm
    have hnumber := h.number m before hm
    have hline := hm.line_span
    exact loneCrs_eq_zero_iff.1 (by omega)
  · intro h
    refine ⟨?_, fun m hm => ?_, fun m before hm => ?_⟩
    · refine (LineMatch.pairwise_standsBehind t).imp ?_
      rintro m m' ⟨before, l, mid, hm, hm'⟩ heq
      have hcr := (hm.line_eq_iff hm').1 heq l (by simp)
      exact h m' _ hm' l (by simp) hcr
    · obtain ⟨before, hbefore⟩ := LineMatch.exists_standsBehind hm
      exact hbefore.exists_record
    · have hline := hm.line_span
      have hzero := loneCrs_eq_zero_iff.2 (h m before hm)
      omega

theorem followsScanner_of_noLoneCr (h : NoLoneCr t) : FollowsScanner t := by
  refine followsScanner_iff.2 fun m before hm l hl => ?_
  obtain ⟨k, after, hls, -, -⟩ := hm
  exact noLoneCr_iff.1 h _ (List.mem_map_of_mem (by rw [hls]; simp [hl]))

/-- A finding is in a line with a match. -/
theorem exists_standsBehind_of_mem_findings {grade : Finding → Option Severity} {f : Located}
    (h : f ∈ findings grade t) : ∃ (m : LineMatch) (before : List Line), m.StandsBehind t before ∧
      m.offset ≤ f.span.start ∧ f.span.stop ≤ m.offset + size m.form.render ∧
      f.position.line + loneCrs before = before.length + 1 := by
  obtain ⟨a, ha, g, -, rfl⟩ := mem_findings.1 h
  obtain ⟨m, hm, ha⟩ := List.mem_flatMap.1 ha
  obtain ⟨before, hbefore⟩ := LineMatch.exists_standsBehind hm
  exact ⟨m, before, hbefore, Scan.offset_le_of_mem_annotate ha, Scan.stop_le_of_mem_annotate ha,
    hbefore.line_of_mem_annotate ha⟩

/-- The number of a match is that of its line, less the lines in front that end in a lone CR; so for findings. -/
theorem lineNumbers_of_matches (t : Text) :
    (∀ a b, t = a ++ b → (Look.holds (Spot.between a b) .anyLineStart = true ↔
      ∃ before l after, ofVisual t = before ++ l :: after ∧ textOf before = a)) ∧
    (∀ m ∈ scanLines t, (∃ before, m.StandsBehind t before) ∧ ∃ r ∈ LineRecord.ofText t, m.LiesIn r) ∧
    (∀ (m : LineMatch) (before : List Line), m.StandsBehind t before →
      (Position.ofOffset t m.span.start).line + loneCrs before = before.length + 1) ∧
    ((scanLines t).Pairwise fun m m' => ∃ before l mid, m.StandsBehind t before ∧
      m'.StandsBehind t (before ++ l :: mid) ∧
      ((Position.ofOffset t m.span.start).line = (Position.ofOffset t m'.span.start).line ↔
        ∀ k ∈ l :: mid, k.ending = .cr)) ∧
    (FollowsScanner t ↔
      ∀ (m : LineMatch) (before : List Line), m.StandsBehind t before → ∀ l ∈ before, l.ending ≠ .cr) ∧
    (NoLoneCr t → FollowsScanner t) ∧
    ∀ path r grade, ∀ f ∈ ((CheckReport.ofText path t r).regrade grade).located,
      ∃ (m : LineMatch) (before : List Line), m.StandsBehind t before ∧ m.offset ≤ f.span.start ∧
        f.span.stop ≤ m.offset + size m.form.render ∧ f.position.line + loneCrs before = before.length + 1 := by
  refine ⟨fun a b h => atLineStart_iff h, fun m hm => ?_, fun m before hm => hm.line_span, ?_, followsScanner_iff,
    followsScanner_of_noLoneCr, fun path r grade f hf => ?_⟩
  · obtain ⟨before, hbefore⟩ := LineMatch.exists_standsBehind hm
    exact ⟨⟨before, hbefore⟩, hbefore.exists_record⟩
  · refine (LineMatch.pairwise_standsBehind t).imp ?_
    rintro m m' ⟨before, l, mid, hm, hm'⟩
    exact ⟨before, l, mid, hm, hm', hm.line_eq_iff hm'⟩
  · rw [CheckReport.located_regrade] at hf
    exact exists_standsBehind_of_mem_findings hf

/-- Behind a lone CR the scanner is on its second line, and a finding there has the number of the first. -/
theorem not_followsScanner_lone_cr : ¬ FollowsScanner "[Interface]\rMTU = 70000\n".toList := by
  intro h
  have happart := h.apart
  revert happart
  decide +kernel

end TunnelConf
