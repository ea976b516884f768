import TunnelConf.Proofs.Scan.Matches
import TunnelConf.Scan

/-!
# Where annotations stand

Annotations belong to lines. Main statements: `Scan.annotate_eq_map`, the annotations of a match
depend on its offset by a shift only; `Scan.exists_covered_of_mem_annotate`, each covers a part of
its line. `Annotation.Kept` puts the two together for lines that stand in two texts.
-/

namespace TunnelConf

open Text Line

/-! ### Parts of parts -/

theorem Text.slice?_trans {i j m n : Nat} {t u v : Text} (hu : slice? i m t = some u)
    (hv : slice? j n u = some v) : slice? (i + j) n t = some v := by
  obtain ⟨a, b, rfl, rfl, -⟩ := slice?_eq_some_iff.1 hu
  obtain ⟨c, d, rfl, rfl, hn⟩ := slice?_eq_some_iff.1 hv
  exact slice?_eq_some_iff.2 ⟨a ++ c, d ++ b, by simp, size_append a c, hn⟩

theorem Text.slice?_append (a b c : Text) : slice? (size a) (size b) (a ++ (b ++ c)) = some b :=
  slice?_eq_some_iff.2 ⟨a, c, by simp, rfl, rfl⟩

theorem Text.size_of_slice? {start len : Nat} {t u : Text} (h : slice? start len t = some u) :
    size u = len ∧ start + len ≤ size t := by
  obtain ⟨a, b, rfl, rfl, rfl⟩ := slice?_eq_some_iff.1 h
  simp only [size_append, true_and]
  omega

/-! ### Tokens -/

namespace Token

theorem isDelimiter_size {c : Char} (h : isDelimiter c = true) : c.utf8Size = 1 := by
  simp only [isDelimiter, isBlank, Bool.or_eq_true, beq_iff_eq] at h
  rcases h with rfl | rfl | rfl <;> rfl

/-- The parts between delimiters stand where their offsets say. The delimiters are one byte each. -/
theorem exists_append_of_mem_placed {n : Nat} {t : Text} {k : Token}
    (h : k ∈ placed n (splitWhere isDelimiter t)) :
    ∃ a b, t = a ++ (k.text ++ b) ∧ k.start = n + size a := by
  induction t generalizing n k with
  | nil =>
    obtain rfl : k = ⟨n, []⟩ := by simpa [splitWhere, placed] using h
    exact ⟨[], [], rfl, rfl⟩
  | cons c t ih =>
    rw [splitWhere] at h
    split at h
    · next hc =>
      rcases List.mem_cons.1 h with rfl | h
      · exact ⟨[], c :: t, rfl, rfl⟩
      · obtain ⟨a, b, rfl, hk⟩ := ih h
        refine ⟨c :: a, b, rfl, ?_⟩
        simp only [hk, size_nil, size_cons, isDelimiter_size hc]
        omega
    · split at h
      · next hs => exact absurd hs (splitWhere_ne_nil _ t)
      · next s ss hs =>
        rw [hs] at ih
        rcases List.mem_cons.1 h with rfl | h
        · obtain ⟨a, b, rfl, ha⟩ := ih (k := ⟨n, s⟩) (List.mem_cons_self ..)
          obtain rfl : a = [] := size_eq_zero_iff.1 (by simp only at ha; omega)
          exact ⟨[], b, rfl, rfl⟩
        · have h : k ∈ placed (n + c.utf8Size) (s :: ss) := by
            refine List.mem_cons_of_mem _ ?_
            rwa [Nat.add_assoc n]
          obtain ⟨a, b, rfl, hk⟩ := ih h
          exact ⟨c :: a, b, rfl, by simp only [hk, size_cons]; omega⟩

theorem slice?_of_mem_ofValue {value : Text} {k : Token} (h : k ∈ ofValue value) :
    slice? k.start (size k.text) value = some k.text ∧ k.text ≠ [] := by
  obtain ⟨hk, hne⟩ := List.mem_filter.1 h
  obtain ⟨a, b, rfl, ha⟩ := exists_append_of_mem_placed hk
  rw [ha, Nat.zero_add]
  exact ⟨slice?_append a k.text b, by simpa using hne⟩

end Token

/-! ### Annotations further on -/

def Span.shift (n : Nat) (s : Span) : Span := { s with start := n + s.start }

def Annotation.shift (n : Nat) (a : Annotation) : Annotation := { a with span := a.span.shift n }

theorem Annotation.shift_info (n : Nat) (s : Span) : shift n (.info s) = .info (s.shift n) := rfl

theorem Span.shift_inj {n : Nat} {s u : Span} : s.shift n = u.shift n ↔ s = u := by
  cases s; cases u; simp [shift]

open Annotation (shift)

namespace Rule

theorem errors_checkTokens_shift (p : Text → Bool) (f : Finding) (value : Text) (s : Span) (n : Nat) :
    (checkTokens p f value (s.shift n)).errors = (checkTokens p f value s).errors.map (shift n) := by
  simp [checkTokens, Annotation.error, Annotation.shift, Span.shift, Nat.add_assoc]

/-- Wherever a value stands, a rule has nothing against it, or rejects it as a whole, or some of its
tokens. -/
theorem errors_validate_cases (r : Rule) (value : Text) :
    (∀ s, (r.validate value s).errors = []) ∨
      (∃ f, ∀ s, (r.validate value s).errors = [.error s f]) ∨
      ∃ p f, ∀ s, (r.validate value s).errors = (checkTokens p f value s).errors := by
  have hone : ∀ (b : Prop) [Decidable b] (f : Finding),
      (∀ s, (if b then Verdict.accept else .reject s f).errors = []) ∨
        ∃ f', ∀ s, (if b then Verdict.accept else .reject s f).errors = [.error s f'] := by
    intro b _ f
    by_cases hb : b
    · exact .inl fun s => by rw [if_pos hb]; rfl
    · exact .inr ⟨f, fun s => by rw [if_neg hb]; rfl⟩
  cases r with
  | addressList => exact .inr (.inr ⟨_, _, fun _ => rfl⟩)
  | dnsList => exact .inr (.inr ⟨_, _, fun _ => rfl⟩)
  | pathList => exact .inr (.inr ⟨_, _, fun _ => rfl⟩)
  | privateKey =>
    by_cases hv : value.isEmpty = true
    · exact .inl fun s => by simp only [validate, if_pos hv]
    · cases hk : KeyPair.decode value with
      | ok pair => exact .inl fun s => by simp only [validate, if_neg hv, hk]
      | error e => exact .inr (.inl ⟨_, fun s => by simp only [validate, if_neg hv, hk]; rfl⟩)
  | base64Key => exact (hone _ _).imp_right .inl
  | endpoint => exact (hone _ _).imp_right .inl
  | numeric => exact (hone _ _).imp_right .inl
  | freeText => exact .inl fun _ => rfl

theorem errors_validate_shift (r : Rule) (value : Text) (s : Span) (n : Nat) :
    (r.validate value (s.shift n)).errors = (r.validate value s).errors.map (shift n) := by
  rcases r.errors_validate_cases value with h | ⟨f, h⟩ | ⟨p, f, h⟩
  · rw [h, h]; rfl
  · rw [h, h]; rfl
  · rw [h, h]; exact errors_checkTokens_shift p f value s n

/-- An error is on the whole value or on one of its tokens. -/
theorem span_of_mem_errors {r : Rule} {value : Text} {s : Span} {a : Annotation}
    (h : a ∈ (r.validate value s).errors) : a.span = s ∨
      ∃ k ∈ Token.ofValue value, a.span = ⟨s.start + k.start, size k.text, s.role⟩ := by
  rcases r.errors_validate_cases value with hr | ⟨f, hr⟩ | ⟨p, f, hr⟩
  · rw [hr] at h; cases h
  · rw [hr] at h
    rw [List.mem_singleton.1 h]
    exact .inl rfl
  · rw [hr] at h
    obtain ⟨k, hk, rfl⟩ := List.mem_map.1 h
    exact .inr ⟨k, (List.mem_filter.1 hk).1, rfl⟩

end Rule

namespace Scan

theorem annotations_ofText (t : Text) (r : RandomStream) :
    (ofText t r).1.annotations = (scanLines t).flatMap annotate := by
  unfold ofText; split <;> rfl

theorem annotateValue_shift (r : Rule) (value : Text) (s : Span) (n : Nat) :
    annotateValue r value (s.shift n) = (annotateValue r value s).map (shift n) := by
  have h : ((fun a : Annotation => a.span == s.shift n) ∘ Annotation.shift n) = fun a => a.span == s := by
    funext a
    simp [shift, Span.shift_inj, Bool.beq_eq_decide_eq]
  simp only [annotateValue, Rule.errors_validate_shift, List.any_map, h]
  split <;> rfl

theorem annotatePair_eq_map (n : Nat) (p : Pair) :
    annotatePair n p = (annotatePair 0 p).map (shift n) := by
  have hk : p.keySpan n = (p.keySpan 0).shift n := by simp [Pair.keySpan, Span.shift]
  have hv : p.valueSpan? n = (p.valueSpan? 0).map (Span.shift n) := by
    cases h : p.assignment with
    | none => simp [Pair.valueSpan?, h]
    | some a => simp [Pair.valueSpan?, h, Pair.keySpan, Span.stop, Span.shift, Nat.add_assoc]
  simp only [annotatePair, hk, hv]
  cases Rule.ofKey? p.name with
  | none => cases p.valueSpan? 0 <;> rfl
  | some r =>
    cases p.valueSpan? 0 with
    | none => rfl
    | some s => simp [annotateValue_shift, Annotation.shift_info]

/-- The annotations of a match are those of its form, further on. -/
theorem annotate_eq_map (n : Nat) (f : LineForm) :
    annotate ⟨n, f⟩ = (annotate ⟨0, f⟩).map (shift n) := by
  cases f with
  | comment lead marker rest => simp [annotate, LineMatch.span, Annotation.shift, Annotation.info, Span.shift]
  | header lead name trail =>
    simp only [annotate, LineMatch.span]
    split <;> simp [shift, Annotation.info, Annotation.error, Span.shift]
  | pair p => exact annotatePair_eq_map n p

theorem annotate_shift (n : Nat) (m : LineMatch) : annotate (m.shift n) = (annotate m).map (shift n) := by
  rw [LineMatch.shift, annotate_eq_map (n + m.offset), annotate_eq_map m.offset m.form, List.map_map]
  refine List.map_congr_left fun b _ => ?_
  simp [shift, Span.shift, Nat.add_assoc]

theorem flatMap_annotate_shift (n : Nat) (ms : List LineMatch) :
    (ms.map (LineMatch.shift n)).flatMap annotate = (ms.flatMap annotate).map (shift n) := by
  rw [List.flatMap_map, List.map_flatMap]
  simp only [annotate_shift]

end Scan

/-! ### What annotations cover -/

/-- The text that an annotation is on. -/
def Annotation.covered? (a : Annotation) (t : Text) : Option Text := slice? a.span.start a.span.len t

open Annotation (covered?)

theorem Pair.len_of_valueSpan? (p : Pair) {n : Nat} {s : Span} (h : p.valueSpan? n = some s) :
    s.len = size p.valueText := by
  obtain ⟨b, hb, rfl⟩ := Option.map_eq_some_iff.1 h
  simp [Pair.valueText, hb]

namespace Scan

/-- The annotations of a value are on parts of it, and on no empty ones unless it is empty. -/
theorem exists_part_of_mem_annotateValue {r : Rule} {value : Text} {s : Span} {a : Annotation}
    (hs : s.len = size value) (h : a ∈ annotateValue r value s) :
    ∃ i u, slice? i (size u) value = some u ∧ a.span.start = s.start + i ∧ a.span.len = size u ∧
      (value ≠ [] → u ≠ []) := by
  have hspan : a.span = s ∨ ∃ k ∈ Token.ofValue value, a.span = ⟨s.start + k.start, size k.text, s.role⟩ := by
    simp only [annotateValue] at h
    split at h
    · exact Rule.span_of_mem_errors h
    · rcases List.mem_cons.1 h with rfl | h
      · exact .inl rfl
      · exact Rule.span_of_mem_errors h
  rcases hspan with h | ⟨k, hk, h⟩
  · refine ⟨0, value, ?_, by rw [h]; rfl, by rw [h]; exact hs, id⟩
    simpa using slice?_append [] value []
  · obtain ⟨hc, hne⟩ := Token.slice?_of_mem_ofValue hk
    exact ⟨k.start, k.text, hc, by rw [h], by rw [h], fun _ => hne⟩

/-- The annotation of a key, an error if no rule is for it. -/
def annotateKey (n : Nat) (p : Pair) : Annotation :=
  if (Rule.ofKey? p.name).isSome then .info (p.keySpan n) else .error (p.keySpan n) .unrecognizedKey

/-- The annotation is on a part of the value of a pair, and on no empty one unless the value is. -/
def OnValue (n : Nat) (p : Pair) (a : Annotation) : Prop :=
  ∃ s i u, p.valueSpan? n = some s ∧ slice? i (size u) p.valueText = some u ∧
    a.span.start = s.start + i ∧ a.span.len = size u ∧ (p.valueText ≠ [] → u ≠ [])

theorem span_annotateKey (n : Nat) (p : Pair) : (annotateKey n p).span = p.keySpan n := by
  unfold annotateKey; split <;> rfl

theorem annotateKey_congr (n : Nat) {p q : Pair} (hlead : p.lead = q.lead) (hname : p.name = q.name) :
    annotateKey n p = annotateKey n q := by
  cases p; cases q
  obtain rfl := hlead
  obtain rfl := hname
  rfl

theorem severity_annotateKey_iff {n : Nat} {p : Pair} :
    (annotateKey n p).severity = .error ↔ Rule.ofKey? p.name = none := by
  unfold annotateKey Annotation.info Annotation.error
  cases Rule.ofKey? p.name <;> simp

theorem annotateKey_mem (n : Nat) (p : Pair) : annotateKey n p ∈ annotatePair n p := by
  unfold annotateKey annotatePair
  cases Rule.ofKey? p.name <;> simp

/-- The annotations of a pair are that of its key and those on its value. -/
theorem eq_or_onValue_of_mem_annotatePair {n : Nat} {p : Pair} {a : Annotation} (h : a ∈ annotatePair n p) :
    a = annotateKey n p ∨ OnValue n p a := by
  simp only [annotatePair] at h
  split at h
  · next hr =>
    rcases List.mem_cons.1 h with rfl | h
    · exact .inl (by simp [annotateKey, hr])
    · obtain ⟨s, hs, rfl⟩ := Option.map_eq_some_iff.1 (Option.mem_toList.1 h)
      refine .inr ⟨s, 0, p.valueText, hs, ?_, rfl, p.len_of_valueSpan? hs, id⟩
      simpa using slice?_append [] p.valueText []
  · next hr =>
    rcases List.mem_cons.1 h with rfl | h
    · exact .inl (by simp [annotateKey, hr])
    · cases hs : p.valueSpan? n with
      | none => rw [hs] at h; cases h
      | some s =>
        rw [hs] at h
        obtain ⟨i, u, hu⟩ := exists_part_of_mem_annotateValue (p.len_of_valueSpan? hs) h
        exact .inr ⟨s, i, u, hs, hu⟩

theorem slice?_keySpan (p : Pair) :
    slice? (p.keySpan 0).start (p.keySpan 0).len p.render = some p.name := by
  have := slice?_append p.lead p.name (p.gap ++ p.assignment.elim [] Assignment.render)
  simpa [Pair.keySpan, Pair.render] using this

theorem slice?_valueSpan {p : Pair} {s : Span} (h : p.valueSpan? 0 = some s) :
    slice? s.start s.len p.render = some p.valueText := by
  obtain ⟨b, hb, rfl⟩ := Option.map_eq_some_iff.1 h
  have he : ('=' : Char).utf8Size = 1 := rfl
  have := slice?_append (p.lead ++ p.name ++ p.gap ++ ('=' :: b.after)) b.value b.trail
  simpa [Pair.keySpan, Span.stop, Pair.valueText, Pair.render, Assignment.render, hb, he,
    Nat.add_assoc] using this

/-- An annotation of a line covers a part of the line. -/
theorem exists_covered_of_mem_annotate {f : LineForm} {a : Annotation} (h : a ∈ annotate ⟨0, f⟩) :
    ∃ u, a.covered? f.render = some u := by
  cases f with
  | comment lead marker rest =>
    obtain rfl := List.mem_singleton.1 h
    have hm : marker.char.utf8Size = 1 := by cases marker <;> rfl
    have := slice?_append lead (marker.char :: rest) []
    exact ⟨_, by simpa [covered?, Annotation.info, LineMatch.span, LineForm.render, hm] using this⟩
  | header lead name trail =>
    have hspan : a.span = ⟨size lead, size name + 2, .header⟩ := by
      simp only [annotate, LineMatch.span, Nat.zero_add] at h
      split at h
      · rw [List.mem_singleton.1 h]; rfl
      · rw [List.mem_singleton.1 h]; rfl
    have hb : ('[' : Char).utf8Size = 1 ∧ (']' : Char).utf8Size = 1 := ⟨rfl, rfl⟩
    have := slice?_append lead ('[' :: name ++ [']']) trail
    have hs : size ('[' :: name ++ [']']) = size name + 2 := by
      simp only [List.cons_append, size_cons, size_append, size_nil, hb]; omega
    refine ⟨'[' :: name ++ [']'], ?_⟩
    rw [covered?, hspan, ← hs]
    simpa [LineForm.render] using this
  | pair p =>
    rcases eq_or_onValue_of_mem_annotatePair h with rfl | ⟨s, i, u, hs, hu, hstart, hlen, -⟩
    · exact ⟨p.name, by rw [covered?, span_annotateKey]; exact slice?_keySpan p⟩
    · refine ⟨u, ?_⟩
      rw [covered?, hstart, hlen]
      exact slice?_trans (slice?_valueSpan hs) hu

theorem exists_slice?_of_mem_annotate {m : LineMatch} {a : Annotation} (h : a ∈ annotate m) :
    ∃ i u, slice? i a.span.len m.form.render = some u ∧ a.span.start = m.offset + i := by
  rw [annotate_eq_map m.offset m.form] at h
  obtain ⟨b, hb, rfl⟩ := List.mem_map.1 h
  obtain ⟨u, hu⟩ := exists_covered_of_mem_annotate hb
  exact ⟨b.span.start, u, hu, rfl⟩

theorem offset_le_of_mem_annotate {m : LineMatch} {a : Annotation} (h : a ∈ annotate m) :
    m.offset ≤ a.span.start := by
  obtain ⟨i, u, -, hstart⟩ := exists_slice?_of_mem_annotate h
  omega

theorem stop_le_of_mem_annotate {m : LineMatch} {a : Annotation} (h : a ∈ annotate m) :
    a.span.stop ≤ m.offset + size m.form.render := by
  obtain ⟨i, u, hu, hstart⟩ := exists_slice?_of_mem_annotate h
  have hle := (size_of_slice? hu).2
  simp only [Span.stop]
  omega

/-- Wherever a line stands, its annotations are on the same parts of it. -/
theorem exists_covered_shift {f : LineForm} {body : Text} {a : Annotation} (hf : LineForm.ofBody? body = some f)
    (h : a ∈ annotate ⟨0, f⟩) :
    ∃ u, ∀ pre post, (a.shift (size pre)).covered? (pre ++ (body ++ post)) = some u := by
  obtain ⟨u, hu⟩ := exists_covered_of_mem_annotate h
  rw [LineForm.render_of_ofBody? hf] at hu
  exact ⟨u, fun pre post => slice?_trans (slice?_append pre body post) hu⟩

end Scan

/-! ### Lines in two texts -/

/-- `a'` says in `t'` of the same piece of text what `a` says in `t`, `d` bytes further on. -/
structure Annotation.Kept (t t' : Text) (d : Int) (a a' : Annotation) : Prop where
  severity : a'.severity = a.severity
  finding : a'.finding = a.finding
  role : a'.span.role = a.span.role
  start : (a'.span.start : Int) = a.span.start + d
  covered : ∃ u, a.covered? t = some u ∧ a'.covered? t' = some u

open Annotation (Kept)

/-- The annotations of lines that stand in two texts. -/
theorem Scan.forall₂_kept (pre pre' : Text) (ls : List Line) (post post' : Text) :
    List.Forall₂ (Kept (pre ++ (textOf ls ++ post)) (pre' ++ (textOf ls ++ post'))
        ((size pre' : Int) - size pre))
      ((LineMatch.ofLines (size pre) ls).flatMap annotate)
      ((LineMatch.ofLines (size pre') ls).flatMap annotate) := by
  induction ls generalizing pre pre' with
  | nil => exact .nil
  | cons l ls ih =>
    have ih := ih (pre ++ l.text) (pre' ++ l.text)
    have hd : ((size (pre' ++ l.text) : Nat) : Int) - (size (pre ++ l.text) : Nat) = (size pre' : Int) - size pre := by
      simp only [size_append]; omega
    rw [hd, size_append, size_append] at ih
    rw [LineMatch.ofLines_cons, LineMatch.ofLines_cons, List.flatMap_append, List.flatMap_append]
    refine List.rel_append ?_ (by simpa using ih)
    cases hf : LineForm.ofBody? l.body with
    | none => exact .nil
    | some f =>
      simp only [Option.map_some, Option.toList_some, List.flatMap_cons, List.flatMap_nil, List.append_nil]
      rw [annotate_eq_map (size pre), annotate_eq_map (size pre'), List.forall₂_map_left_iff,
        List.forall₂_map_right_iff, List.forall₂_same]
      intro a ha
      obtain ⟨u, hu⟩ := exists_covered_shift hf ha
      refine ⟨rfl, rfl, rfl, ?_, u, ?_, ?_⟩
      · show ((size pre' + a.span.start : Nat) : Int) = (size pre + a.span.start : Nat) + _
        omega
      · simpa [Line.text] using hu pre (l.ending.text ++ (textOf ls ++ post))
      · simpa [Line.text] using hu pre' (l.ending.text ++ (textOf ls ++ post'))

theorem Scan.stop_le_of_mem_ofLines {ls : List Line} {a : Annotation}
    (h : a ∈ (LineMatch.ofLines 0 ls).flatMap annotate) : a.span.stop ≤ size (textOf ls) := by
  obtain ⟨u, hu, -⟩ := (List.forall₂_same.1 (forall₂_kept [] [] ls [] []) a h).covered
  have := (size_of_slice? hu).2
  simpa [Span.stop] using this

theorem Scan.le_start_of_mem_ofLines {n : Nat} {ls : List Line} {a : Annotation}
    (h : a ∈ (LineMatch.ofLines n ls).flatMap annotate) : n ≤ a.span.start := by
  obtain ⟨m, hm, ha⟩ := List.mem_flatMap.1 h
  exact Nat.le_trans (LineMatch.le_offset_of_mem_ofLines hm) (offset_le_of_mem_annotate ha)

end TunnelConf
