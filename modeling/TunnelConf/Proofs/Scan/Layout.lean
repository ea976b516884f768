import TunnelConf.Proofs.Scan.Annotations

/-!
# How annotations lie

The annotations of a scan are in order, no two are on the same span, and two of them share a byte only if
the one is on the value of a pair and the other is an error on a token of it (`Scan.WellFormed`). Within a
line this follows from `AnnotatesLine`, what a line can contribute; between lines from
`LineMatch.pairwise_ofLines`, lines with a line ending between them share nothing. Main statement:
`annotations_wellFormed`.
-/

namespace TunnelConf

open Text Line

/-- The two spans have a byte in common. -/
def Span.Overlaps (s u : Span) : Prop := ∃ i, (s.start ≤ i ∧ i < s.stop) ∧ u.start ≤ i ∧ i < u.stop

theorem Span.not_overlaps_of_stop_le {s u : Span} (h : s.stop ≤ u.start) : ¬ s.Overlaps u := by
  rintro ⟨i, hs, hu⟩; omega

/-! ### Tokens in order -/

namespace Token

theorem le_start_of_mem_placed {n : Nat} {ps : List Text} {k : Token} (h : k ∈ placed n ps) : n ≤ k.start := by
  induction ps generalizing n with
  | nil => cases h
  | cons p ps ih =>
    rcases List.mem_cons.1 h with rfl | h
    · exact Nat.le_refl n
    · have := ih h
      omega

theorem pairwise_placed (n : Nat) (ps : List Text) : (placed n ps).Pairwise fun k l => k.stop < l.start := by
  induction ps generalizing n with
  | nil => exact .nil
  | cons p ps ih =>
    refine .cons (fun l hl => ?_) (ih _)
    have := le_start_of_mem_placed hl
    simp only [stop]
    omega

/-- Between two tokens there is a delimiter. -/
theorem pairwise_ofValue (value : Text) : (ofValue value).Pairwise fun k l => k.stop < l.start :=
  (pairwise_placed 0 _).filter _

end Token

/-! ### What a line contributes -/

/-- An error on a token inside a value that has more than the token. -/
structure TokenError (value : Text) (s : Span) (e : Annotation) : Prop where
  severity : e.severity = .error
  token : ∃ k ∈ Token.ofValue value, e.span = ⟨s.start + k.start, size k.text, s.role⟩
  inside : s.start ≤ e.span.start ∧ e.span.stop ≤ s.stop
  shorter : e.span.len < s.len

/-- What a value at the span `s` contributes: one annotation on the whole of it, or its own and then
errors on tokens from left to right. -/
inductive AnnotatesValue (value : Text) (s : Span) : List Annotation → Prop
  | whole {a : Annotation} (ha : a.span = s) : AnnotatesValue value s [a]
  | tokens {errors : List Annotation} (he : ∀ e ∈ errors, TokenError value s e)
    (hlt : errors.Pairwise fun d e => d.span.stop < e.span.start) :
    AnnotatesValue value s (.info s :: errors)

/-- What a line contributes: one annotation on its comment, header or key, and those of its value if it
has an equals sign. -/
inductive AnnotatesLine : LineMatch → List Annotation → Prop
  | alone {m : LineMatch} {a : Annotation} (ha : a.span = m.span)
    (hm : ∀ p, m.form = .pair p → p.assignment = none) : AnnotatesLine m [a]
  | assigned {n : Nat} {p : Pair} {s : Span} {a : Annotation} {values : List Annotation}
    (ha : a.span = p.keySpan n) (hs : p.valueSpan? n = some s) (hv : AnnotatesValue p.valueText s values) :
    AnnotatesLine ⟨n, .pair p⟩ (a :: values)

namespace Scan

theorem pairwise_checkTokens (p : Text → Bool) (f : Finding) (value : Text) (s : Span) :
    (Rule.checkTokens p f value s).errors.Pairwise fun d e => d.span.stop < e.span.start := by
  rw [Rule.checkTokens, List.pairwise_map]
  refine ((Token.pairwise_ofValue value).filter _).imp fun {k l} h => ?_
  simp only [Span.stop, Token.stop, Annotation.error] at h ⊢
  omega

/-- An error on a token is inside the value, and is on the whole of it if it is not shorter. -/
theorem tokenError_or_span_eq {p : Text → Bool} {f : Finding} {value : Text} {s : Span} {e : Annotation}
    (hs : s.len = size value) (he : e ∈ (Rule.checkTokens p f value s).errors) :
    TokenError value s e ∨ e.span = s := by
  obtain ⟨k, hk, rfl⟩ := List.mem_map.1 he
  have hk := (List.mem_filter.1 hk).1
  have hle := (size_of_slice? (Token.slice?_of_mem_ofValue hk).1).2
  by_cases hlt : size k.text < s.len
  · refine .inl ⟨rfl, ⟨k, hk, rfl⟩, ?_, hlt⟩
    simp only [Span.stop, Annotation.error]
    omega
  · right
    have hstart : k.start = 0 := by omega
    have hlen : size k.text = s.len := by omega
    show (⟨s.start + k.start, size k.text, s.role⟩ : Span) = s
    rw [hstart, hlen]
    rfl

/-- Annotations in order within a span are no others than the one on the whole span. -/
theorem eq_singleton_of_span_eq {errors : List Annotation} {s : Span} {e : Annotation}
    (hlt : errors.Pairwise fun d e => d.span.stop < e.span.start)
    (hin : ∀ d ∈ errors, s.start ≤ d.span.start ∧ d.span.stop ≤ s.stop) (he : e ∈ errors) (hs : e.span = s) :
    errors = [e] := by
  obtain ⟨before, after, rfl⟩ := List.append_of_mem he
  obtain ⟨-, hafter, hcross⟩ := List.pairwise_append.1 hlt
  have hle : ∀ d : Annotation, d.span.start ≤ d.span.stop := fun d => Nat.le_add_right _ _
  obtain rfl : before = [] := by
    refine List.eq_nil_iff_forall_not_mem.2 fun d hd => ?_
    have h₁ := hcross d hd e (List.mem_cons_self ..)
    have h₂ := hin d (List.mem_append_left _ hd)
    have h₃ := hle d
    rw [hs] at h₁
    omega
  obtain rfl : after = [] := by
    refine List.eq_nil_iff_forall_not_mem.2 fun d hd => ?_
    have h₁ := (List.pairwise_cons.1 hafter).1 d hd
    have h₂ := hin d (by simp [hd])
    have h₃ := hle d
    rw [hs] at h₁
    omega
  rfl

theorem annotatesValue (r : Rule) {value : Text} {s : Span} (hs : s.len = size value) :
    AnnotatesValue value s (annotateValue r value s) := by
  rcases r.errors_validate_cases value with h | ⟨f, h⟩ | ⟨p, f, h⟩
  · rw [annotateValue, h]
    exact .whole rfl
  · have hone : annotateValue r value s = [.error s f] := by simp [annotateValue, h, Annotation.error]
    rw [hone]
    exact .whole rfl
  · have hlt := pairwise_checkTokens p f value s
    rw [annotateValue, h]
    split
    · next hany =>
      obtain ⟨e, he, hspan⟩ := List.any_eq_true.1 hany
      have hspan : e.span = s := by simpa using hspan
      rw [eq_singleton_of_span_eq hlt (fun d hd => ?_) he hspan]
      · exact .whole hspan
      · rcases tokenError_or_span_eq hs hd with ht | ht
        · exact ht.inside
        · rw [ht]; exact ⟨Nat.le_refl _, Nat.le_refl _⟩
    · next hany =>
      refine .tokens (fun e he => ?_) hlt
      refine (tokenError_or_span_eq hs he).resolve_right fun hspan => hany ?_
      exact List.any_eq_true.2 ⟨e, he, by simpa using hspan⟩

theorem annotatesLine (m : LineMatch) : AnnotatesLine m (annotate m) := by
  obtain ⟨n, f⟩ := m
  cases f with
  | comment lead marker rest => exact .alone rfl (by simp)
  | header lead name trail =>
    simp only [annotate]
    split
    · exact .alone rfl (by simp)
    · exact .alone rfl (by simp)
  | pair p =>
    simp only [annotate, annotatePair]
    cases ha : p.assignment with
    | none =>
      have hs : p.valueSpan? n = none := by rw [Pair.valueSpan?, ha]; rfl
      have hp : ∀ q, LineForm.pair p = .pair q → q.assignment = none := by rintro q ⟨⟩; exact ha
      rw [hs]
      cases Rule.ofKey? p.name with
      | none => exact .alone rfl hp
      | some r => exact .alone rfl hp
    | some x =>
      obtain ⟨s, hs⟩ : ∃ s, p.valueSpan? n = some s := by rw [Pair.valueSpan?, ha]; exact ⟨_, rfl⟩
      rw [hs]
      cases Rule.ofKey? p.name with
      | none => exact .assigned rfl hs (.whole rfl)
      | some r => exact .assigned rfl hs (annotatesValue r (p.len_of_valueSpan? hs))

end Scan

/-! ### Annotations one after the other -/

/-- `b` is listed behind `a` in a scan of `t`. -/
structure Scan.Follows (t : Text) (a b : Annotation) : Prop where
  start_le : a.span.start ≤ b.span.start
  span_ne : a.span ≠ b.span
  nested : a.span.Overlaps b.span → ∃ n p s, ⟨n, .pair p⟩ ∈ scanLines t ∧ p.valueSpan? n = some s ∧
    a = .info s ∧ TokenError p.valueText s b

theorem Scan.Follows.of_stop_lt (t : Text) {a b : Annotation} (h : a.span.stop < b.span.start) :
    Follows t a b := by
  have hle : a.span.start ≤ a.span.stop := Nat.le_add_right _ _
  refine ⟨by omega, ?_, fun ho => absurd ho (Span.not_overlaps_of_stop_le (by omega))⟩
  intro heq
  rw [heq] at h hle
  omega

theorem Pair.stop_keySpan_lt (p : Pair) {n : Nat} {s : Span} (h : p.valueSpan? n = some s) :
    (p.keySpan n).stop < s.start := by
  obtain ⟨x, -, rfl⟩ := Option.map_eq_some_iff.1 h
  simp only
  omega

theorem AnnotatesValue.start_le {value : Text} {s : Span} {values : List Annotation}
    (h : AnnotatesValue value s values) : ∀ a ∈ values, s.start ≤ a.span.start ∧ a.span.role = s.role := by
  cases h with
  | whole ha => exact List.forall_mem_singleton.2 ⟨by rw [ha], by rw [ha]⟩
  | tokens he hlt =>
    refine List.forall_mem_cons.2 ⟨⟨Nat.le_refl _, rfl⟩, fun e hmem => ?_⟩
    obtain ⟨k, -, hk⟩ := (he e hmem).token
    exact ⟨(he e hmem).inside.1, by rw [hk]⟩

theorem AnnotatesLine.pairwise {t : Text} {m : LineMatch} {as : List Annotation} (hm : m ∈ scanLines t)
    (h : AnnotatesLine m as) : as.Pairwise (Scan.Follows t) := by
  cases h with
  | alone ha hp => exact List.pairwise_singleton ..
  | @assigned n p s a values ha hs hv =>
    refine .cons (fun b hb => .of_stop_lt t ?_) ?_
    · have h₁ := p.stop_keySpan_lt hs
      have h₂ := (hv.start_le b hb).1
      rw [ha]
      omega
    · cases hv with
      | whole hb => exact List.pairwise_singleton ..
      | tokens he hlt =>
        refine .cons (fun e hmem => ?_) (hlt.imp (.of_stop_lt t))
        have ht := he e hmem
        refine ⟨ht.inside.1, ?_, fun _ => ⟨n, p, s, hm, hs, rfl, ht⟩⟩
        intro heq
        have hlen := ht.shorter
        rw [← heq] at hlen
        exact Nat.lt_irrefl _ hlen

/-- On the comment, the header or the key of a line there is one annotation. -/
theorem AnnotatesLine.filter_role {m : LineMatch} {as : List Annotation} (h : AnnotatesLine m as) :
    (as.filter fun a => a.span.role ≠ .value).map Annotation.span = [m.span] := by
  have hrole : m.span.role ≠ .value := by
    obtain ⟨n, f⟩ := m
    cases f <;> simp [LineMatch.span, Pair.keySpan]
  cases h with
  | alone ha hp => simp [ha, hrole]
  | @assigned n p s a values ha hs hv =>
    have hvalue : values.filter (fun a => a.span.role ≠ .value) = [] := by
      rw [List.filter_eq_nil_iff]
      intro b hb
      obtain ⟨x, -, rfl⟩ := Option.map_eq_some_iff.1 hs
      simp [(hv.start_le b hb).2]
    have hkey : a.span = (LineMatch.mk n (.pair p)).span := ha
    rw [List.filter_cons_of_pos (by simpa [hkey] using hrole), hvalue, List.map_singleton, hkey]

/-! ### Lines apart -/

/-- Between two matches there is a line ending. -/
theorem LineMatch.pairwise_ofLines {ls : List Line} (h : Proper ls) (start : Nat) :
    (ofLines start ls).Pairwise fun m m' => m.offset + size m.form.render < m'.offset := by
  induction ls generalizing start with
  | nil => exact .nil
  | cons l ls ih =>
    cases hls : ls with
    | nil =>
      rw [ofLines_cons]
      cases LineForm.ofBody? l.body with
      | none => exact .nil
      | some f => exact List.pairwise_singleton ..
    | cons k ks =>
      rw [← hls, ofLines_cons, List.pairwise_append]
      refine ⟨?_, ih (by rw [hls] at h ⊢; exact h.2.2) _, fun m hm m' hm' => ?_⟩
      · cases LineForm.ofBody? l.body with
        | none => exact .nil
        | some f => exact List.pairwise_singleton ..
      · obtain ⟨f, hf, rfl⟩ := Option.map_eq_some_iff.1 (Option.mem_toList.1 hm)
        have hlt := Proper.size_body_lt (show Proper ([] ++ l :: ls) from h) (by simp [hls])
        have hle := le_offset_of_mem_ofLines hm'
        rw [LineForm.render_of_ofBody? hf]
        show start + size l.body < m'.offset
        omega

namespace Scan

theorem pairwise_annotations (t : Text) : ((scanLines t).flatMap annotate).Pairwise (Follows t) := by
  rw [List.pairwise_flatMap]
  refine ⟨fun m hm => (annotatesLine m).pairwise hm, ?_⟩
  rw [LineMatch.scanLines_eq_ofLines]
  refine (LineMatch.pairwise_ofLines (proper_ofVisual t) 0).imp fun {m m'} hlt a ha b hb => ?_
  have h₁ := stop_le_of_mem_annotate ha
  have h₂ := offset_le_of_mem_annotate hb
  exact .of_stop_lt t (by omega)

theorem filter_role_annotations (ms : List LineMatch) :
    ((ms.flatMap annotate).filter fun a => a.span.role ≠ .value).map Annotation.span =
      ms.map LineMatch.span := by
  induction ms with
  | nil => rfl
  | cons m ms ih =>
    rw [List.flatMap_cons, List.filter_append, List.map_append, ih, (annotatesLine m).filter_role]
    rfl

/-- An annotation covers a part of a line. -/
theorem exists_isBody_of_mem {t : Text} {a : Annotation} (h : a ∈ (scanLines t).flatMap annotate) :
    ∃ before u after, t = before ++ (u ++ after) ∧ a.span.start = size before ∧ a.span.len = size u ∧
      IsBody u := by
  obtain ⟨m, hm, ha⟩ := List.mem_flatMap.1 h
  rw [LineMatch.scanLines_eq_ofLines] at hm
  obtain ⟨ls, l, ms, hls, hf, hoff⟩ := LineMatch.exists_line_of_mem_ofLines hm
  obtain ⟨i, u, hu, hstart⟩ := exists_slice?_of_mem_annotate ha
  rw [LineForm.render_of_ofBody? hf] at hu
  obtain ⟨x, y, hbody, hx, hlen⟩ := slice?_eq_some_iff.1 hu
  have hl : IsBody l.body := (proper_ofVisual t).isBody l (by simp [hls])
  rw [hbody, isBody_append, isBody_append] at hl
  refine ⟨textOf ls ++ x, u, y ++ (l.ending.text ++ textOf ms), ?_, ?_, hlen.symm, hl.1.2⟩
  · conv_lhs => rw [← textOf_ofVisual t, hls, textOf_append, textOf_cons, Line.text, hbody]
    simp
  · rw [size_append]
    omega

/-- An annotation as a scan makes it. -/
inductive Fresh : Annotation → Prop
  | info (s : Span) : Fresh (.info s)
  | error (s : Span) (f : Finding) : Fresh (.error s f)

theorem Fresh.finding {a : Annotation} (h : Fresh a) :
    (a.severity = .error ∧ a.finding.isSome = true) ∨ (a.severity = .info ∧ a.finding = none) := by
  cases h with
  | info s => exact .inr ⟨rfl, rfl⟩
  | error s f => exact .inl ⟨rfl, rfl⟩

theorem fresh_of_mem_errors {r : Rule} {value : Text} {s : Span} {a : Annotation}
    (h : a ∈ (r.validate value s).errors) : Fresh a := by
  rcases r.errors_validate_cases value with hr | ⟨f, hr⟩ | ⟨p, f, hr⟩
  · rw [hr] at h
    cases h
  · rw [hr] at h
    rw [List.mem_singleton.1 h]
    exact .error s f
  · rw [hr] at h
    obtain ⟨k, -, rfl⟩ := List.mem_map.1 h
    exact .error _ f

theorem fresh_of_mem_annotateValue {r : Rule} {value : Text} {s : Span} {a : Annotation}
    (h : a ∈ annotateValue r value s) : Fresh a := by
  simp only [annotateValue] at h
  split at h
  · exact fresh_of_mem_errors h
  · rcases List.mem_cons.1 h with rfl | h
    · exact .info s
    · exact fresh_of_mem_errors h

theorem fresh_of_mem_annotatePair {n : Nat} {p : Pair} {a : Annotation} (h : a ∈ annotatePair n p) :
    Fresh a := by
  simp only [annotatePair] at h
  split at h
  · rcases List.mem_cons.1 h with rfl | h
    · exact .error _ _
    · obtain ⟨s, -, rfl⟩ := Option.map_eq_some_iff.1 (Option.mem_toList.1 h)
      exact .info s
  · rcases List.mem_cons.1 h with rfl | h
    · exact .info _
    · cases hs : p.valueSpan? n with
      | none => rw [hs] at h; cases h
      | some s => rw [hs] at h; exact fresh_of_mem_annotateValue h

theorem fresh_of_mem_annotate {m : LineMatch} {a : Annotation} (h : a ∈ annotate m) : Fresh a := by
  obtain ⟨n, f⟩ := m
  cases f with
  | comment lead marker rest => rw [List.mem_singleton.1 h]; exact .info _
  | header lead name trail =>
    simp only [annotate] at h
    split at h
    · rw [List.mem_singleton.1 h]; exact .info _
    · rw [List.mem_singleton.1 h]; exact .error _ _
  | pair p => exact fresh_of_mem_annotatePair h

/-- The annotations of a scan of `t`, as a whole. -/
structure WellFormed (t : Text) (as : List Annotation) : Prop where
  /-- Each covers characters of the text, and none of them ends a line. -/
  covers : ∀ a ∈ as, ∃ before u after, t = before ++ (u ++ after) ∧ a.span.start = size before ∧
    a.span.len = size u ∧ IsBody u
  follows : as.Pairwise (Follows t)
  lines : ∃ rows, List.Forall₂ AnnotatesLine (scanLines t) rows ∧ as = rows.flatten
  /-- Comments, headers and keys are annotated once each. -/
  once : (as.filter fun a => a.span.role ≠ .value).map Annotation.span = (scanLines t).map LineMatch.span
  findings : ∀ a ∈ as, (a.severity = .error ∧ a.finding.isSome = true) ∨ (a.severity = .info ∧ a.finding = none)

end Scan

/-- Whatever the text and the random bytes, the annotations of a scan are well formed. -/
theorem annotations_wellFormed (t : Text) (r : RandomStream) :
    Scan.WellFormed t (Scan.ofText t r).1.annotations := by
  rw [Scan.annotations_ofText]
  refine ⟨fun a ha => Scan.exists_isBody_of_mem ha, Scan.pairwise_annotations t,
    ⟨(scanLines t).map Scan.annotate, ?_, rfl⟩, Scan.filter_role_annotations _, fun a ha => ?_⟩
  · rw [List.forall₂_map_right_iff, List.forall₂_same]
    exact fun m _ => Scan.annotatesLine m
  · obtain ⟨m, -, hm⟩ := List.mem_flatMap.1 ha
    exact (Scan.fresh_of_mem_annotate hm).finding

end TunnelConf
