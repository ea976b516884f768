import TunnelConf.Proofs.Scan.Annotations
import TunnelConf.Proofs.Scan.PrivateKeys

/-!
# Filling in a private key

A scan with an autofill and the scan of the text that the autofill makes. Only the value of one pair
is new (`Scan.FilledIn`): what stands in front of it stays and what stands behind it moves by what was
written. The key that was written reads as a valid one, so the second scan finds no error on it and
derives the public key that the first one has promised.
-/

namespace TunnelConf

open Text Line
open Annotation (shift)

/-! ### What a scan of a text with an empty private key is -/

namespace FirstVacant

variable {t : Text} {before after : List Line} {p : Pair} {a : Assignment} {e : Ending}

theorem ofText (h : FirstVacant t before p a e after) (r : RandomStream) :
    Scan.ofText t r = (Scan.build t (some (KeyPair.generate r).1), (KeyPair.generate r).2) := by
  rw [Scan.ofText, h.emptySite?]
  rfl

theorem autofill_ofText (h : FirstVacant t before p a e after) (r : RandomStream) :
    (Scan.ofText t r).1.autofill = some (splice before p a (KeyPair.generate r).1.secret) := by
  rw [h.ofText, ← h.fill]
  simp only [Scan.build, h.emptySite?]
  rfl

end FirstVacant

namespace Scan

theorem ofText_of_not_mem {t : Text} (h : [] ∉ privateValues t) (r : RandomStream) :
    ofText t r = (build t none, r) := by
  rw [ofText, emptySite?_eq_none_iff.2 h]
  rfl

theorem autofill_eq_none_iff {t : Text} {r : RandomStream} :
    (ofText t r).1.autofill = none ↔ [] ∉ privateValues t := by
  constructor
  · intro h hmem
    obtain ⟨before, p, a, e, after, hf⟩ := exists_firstVacant hmem
    rw [hf.autofill_ofText] at h
    cases h
  · intro h
    rw [ofText_of_not_mem h]
    simp [build]

/-- A private key that is empty or valid has no error. -/
theorem annotatePair_privateKey (n : Nat) {p : Pair} {a : Assignment} {s : Span}
    (hp : lower p.name = "privatekey".toList) (ha : p.assignment = some a) (hs : p.valueSpan? n = some s)
    (hv : a.value = [] ∨ ∃ pair, KeyPair.decode a.value = .ok pair) :
    annotatePair n p = [.info (p.keySpan n), .info s] := by
  have herr : (Rule.privateKey.validate a.value s).errors = [] := by
    rcases hv with hv | ⟨pair, hv⟩
    · simp [Rule.validate, hv]
    · simp only [Rule.validate, hv]
      split <;> rfl
  have hval : p.valueText = a.value := by simp [Pair.valueText, ha]
  rw [annotatePair, Rule.ofKey?_eq_privateKey_iff.2 hp, hs, hval]
  simp [annotateValue, herr]

end Scan

/-! ### The scan before and the scan after -/

/-- `old` and `new` are scans of `t` and of `t'`, which `s` has made of `t` by writing `key`, with a
space in front or not, where a pair had an empty value. -/
structure Scan.FilledIn (t t' : Text) (old new : Scan) (s : Splice) (key : Text) : Prop where
  derivedPrivate : old.derivedPrivate = some key ∧ key.length = 44
  pair : ∃ n p a, ⟨n, .pair p⟩ ∈ scanLines t ∧ ⟨n, .pair (p.withKey a key)⟩ ∈ scanLines t' ∧
    p.valueSpan? n = some ⟨s.start, 0, .value⟩ ∧
    (p.withKey a key).valueSpan? n = some ⟨s.start + size s.replacement - 44, 44, .value⟩
  covered : slice? (s.start + size s.replacement - 44) 44 t' = some key
  annotations : ∃ front back,
    old.annotations = front ++ .info ⟨s.start, 0, .value⟩ :: back ∧
    new.annotations = front ++ .info ⟨s.start + size s.replacement - 44, 44, .value⟩ ::
      back.map (shift (size s.replacement)) ∧
    (∀ a ∈ front, a.span.stop ≤ s.start) ∧ ∀ a ∈ back, s.start < a.span.start
  unharmed : ∀ a ∈ new.annotations, a.isError = true →
    a.span.stop ≤ s.start ∨ s.start + size s.replacement < a.span.start
  kinds : new.annotations.map (fun a => (a.span.role, a.severity, a.finding)) =
    old.annotations.map fun a => (a.span.role, a.severity, a.finding)
  hasErrors : new.hasErrors = old.hasErrors
  derivedPublic : new.derivedPublic = old.derivedPublic

/-- The annotation of the value is no error, so an error stands in front of the splice or behind it. -/
theorem Scan.unharmed_of_annotations {front back new : List Annotation} {v : Span} {start d : Nat}
    (hnew : new = front ++ .info v :: back.map (shift d))
    (hfront : ∀ a ∈ front, a.span.stop ≤ start) (hback : ∀ a ∈ back, start < a.span.start) :
    ∀ a ∈ new, a.isError = true → a.span.stop ≤ start ∨ start + d < a.span.start := by
  intro a ha herr
  rw [hnew, List.mem_append, List.mem_cons] at ha
  rcases ha with ha | rfl | ha
  · exact .inl (hfront a ha)
  · cases herr
  · obtain ⟨b, hb, rfl⟩ := List.mem_map.1 ha
    have hlt := hback b hb
    right
    simp only [shift, Span.shift]
    omega

namespace FirstVacant

variable {t : Text} {before after : List Line} {p : Pair} {a : Assignment} {e : Ending} (k : Key)

theorem text_filled : filled before p a e after k =
    textOf before ++ (p.withKey a k.encode).render ++ (e.text ++ textOf after) := by
  rw [filled, textOf_append, textOf_cons, Line.text]
  simp

theorem slice?_filled (h : FirstVacant t before p a e after) :
    slice? (size (textOf before) + size p.render + size (a.written k.encode) - 44) 44
      (filled before p a e after k) = some k.encode := by
  have hs : ∃ u, a.written k.encode = u ++ k.encode ∧ size u + 44 = size (a.written k.encode) := by
    rw [Assignment.written]
    split
    · exact ⟨[' '], rfl, by simp only [size_cons, size_nil, k.size_encode]⟩
    · exact ⟨[], rfl, by simp [k.size_encode]⟩
  obtain ⟨u, hu, hsize⟩ := hs
  refine slice?_eq_some_iff.2 ⟨textOf before ++ p.render ++ u, e.text ++ textOf after, ?_, ?_, k.size_encode⟩
  · rw [text_filled, h.vacant.render_withKey, hu]
    simp
  · simp only [size_append]
    omega

/-- The annotations around those of the pair. -/
theorem annotations (h : FirstVacant t before p a e after) (generated : Option KeyPair) :
    (Scan.build t generated).annotations =
      (LineMatch.ofLines 0 before).flatMap Scan.annotate ++ [.info (p.keySpan (size (textOf before)))] ++
        .info ⟨size (textOf before) + size p.render, 0, .value⟩ ::
        (LineMatch.ofLines (size (textOf before) + size (p.render ++ e.text)) after).flatMap Scan.annotate := by
  have hp := Scan.annotatePair_privateKey (size (textOf before)) h.vacant.privateKey h.vacant.assignment
    (h.vacant.valueSpan? _) (.inl h.vacant.empty)
  have hf : LineForm.ofBody? p.render = some (.pair p) := LineForm.ofBody?_pair h.vacant.fits
  rw [Scan.annotations_build, LineMatch.scanLines_of_lines h.lines, hf]
  simp [Scan.annotate, hp, Line.text]

theorem annotations_filled (h : FirstVacant t before p a e after) (generated : Option KeyPair) :
    (Scan.build (filled before p a e after k) generated).annotations =
      (LineMatch.ofLines 0 before).flatMap Scan.annotate ++ [.info (p.keySpan (size (textOf before)))] ++
        .info ⟨size (textOf before) + size p.render + size (a.written k.encode) - 44, 44, .value⟩ ::
        ((LineMatch.ofLines (size (textOf before) + size (p.render ++ e.text)) after).flatMap
          Scan.annotate).map (shift (size (a.written k.encode))) := by
  have hp := Scan.annotatePair_privateKey (size (textOf before)) (p := p.withKey a k.encode) h.vacant.privateKey
    rfl (h.vacant.valueSpan?_withKey k _) (.inr ⟨⟨k⟩, KeyPair.decode_encode ⟨k⟩⟩)
  have hn : size (textOf before) + size ((p.withKey a k.encode).render ++ e.text) =
      size (textOf before) + size (p.render ++ e.text) + size (a.written k.encode) := by
    rw [h.vacant.render_withKey]
    simp only [size_append]
    omega
  rw [Scan.annotations_build, LineMatch.scanLines_of_lines (h.ofVisual_filled k), h.vacant.ofBody?_withKey,
    Line.text, hn, LineMatch.ofLines_add]
  have hkey : (p.withKey a k.encode).keySpan (size (textOf before)) = p.keySpan (size (textOf before)) := rfl
  simp only [Option.map_some, Option.toList_some, List.flatMap_append, List.flatMap_cons, Scan.annotate, hp,
    hkey, Scan.flatMap_annotate_shift, List.append_assoc, List.cons_append, List.nil_append]

/-- In front of the first empty value no public key is that of a generated pair, and the key that is
written has the public key that stood for the empty value. -/
theorem derivedPublic_filled (h : FirstVacant t before p a e after) (pair : KeyPair)
    (generated : Option KeyPair) :
    (Scan.build (filled before p a e after pair.secret) generated).derivedPublic =
      (Scan.build t (some pair)).derivedPublic := by
  have hb : ∀ v ∈ before.filterMap (fun l => privateValue? l.body), v ≠ [] := by
    intro v hv
    obtain ⟨l, hl, hlv⟩ := List.mem_filterMap.1 hv
    rintro rfl
    exact h.none_before l hl hlv
  have hkey : Scan.publicOf generated pair.secret.encode = some pair.publicKey.encode := by
    rw [Scan.publicOf, if_neg (by simpa using pair.secret.encode_ne_nil), KeyPair.decode_encode]
    rfl
  have hempty : Scan.publicOf (some pair) [] = some pair.publicKey.encode := rfl
  rw [Scan.derivedPublic_build, Scan.derivedPublic_build, h.privateValues_filled, h.privateValues_eq,
    List.findSome?_append, List.findSome?_append, List.findSome?_cons, List.findSome?_cons, hkey, hempty,
    Scan.findSome?_publicOf hb generated (some pair)]

/-- In front of the key stand the lines before, and the key in front of its value. -/
theorem stop_le_start :
    ∀ b ∈ (LineMatch.ofLines 0 before).flatMap Scan.annotate ++ [.info (p.keySpan (size (textOf before)))],
      b.span.stop ≤ (splice before p a k).start := by
  intro b hb
  simp only [splice, Splice.insert, Splice.replace]
  rcases List.mem_append.1 hb with hb | hb
  · have hstop := Scan.stop_le_of_mem_ofLines hb
    omega
  · obtain rfl := List.mem_singleton.1 hb
    simp only [Span.stop, Pair.keySpan, Annotation.info, Pair.render, size_append]
    omega

/-- Lines behind an empty value at the end of its line stand behind a line ending as well. -/
theorem start_lt (h : FirstVacant t before p a e after) :
    ∀ b ∈ (LineMatch.ofLines (size (textOf before) + size (p.render ++ e.text)) after).flatMap Scan.annotate,
      (splice before p a k).start < b.span.start := by
  intro b hb
  have hp := proper_ofVisual t
  rw [h.lines] at hp
  have hne : after ≠ [] := by rintro rfl; cases hb
  have hstart := Scan.le_start_of_mem_ofLines hb
  have hlt := hp.size_body_lt hne
  simp only [Line.text] at hlt
  simp only [splice, Splice.insert, Splice.replace]
  omega

theorem filledIn (h : FirstVacant t before p a e after) (pair : KeyPair) (generated : Option KeyPair) :
    Scan.FilledIn t (filled before p a e after pair.secret) (Scan.build t (some pair))
      (Scan.build (filled before p a e after pair.secret) generated) (splice before p a pair.secret)
      pair.secret.encode := by
  have hold := h.annotations (some pair)
  have hnew := h.annotations_filled pair.secret generated
  have hfront := @stop_le_start before p a pair.secret
  have hback := h.start_lt pair.secret
  refine ⟨⟨rfl, pair.secret.length_encode⟩, ?_, h.slice?_filled _, ⟨_, _, hold, hnew, hfront, hback⟩,
    Scan.unharmed_of_annotations hnew hfront hback, ?_, ?_, h.derivedPublic_filled pair _⟩
  · refine ⟨size (textOf before), p, a, ?_, ?_, h.vacant.valueSpan? _, h.vacant.valueSpan?_withKey _ _⟩
    · rw [LineMatch.scanLines_of_lines h.lines, LineForm.ofBody?_pair h.vacant.fits]
      simp
    · rw [LineMatch.scanLines_of_lines (h.ofVisual_filled _), h.vacant.ofBody?_withKey]
      simp
  · rw [hold, hnew]
    simp [shift, Span.shift, Annotation.info]
  · have herr : Annotation.isError ∘ shift (size (a.written pair.secret.encode)) = Annotation.isError := rfl
    rw [Scan.hasErrors, Scan.hasErrors, hold, hnew]
    simp only [List.any_append, List.any_cons, List.any_map, herr]
    rfl

end FirstVacant

theorem Scan.exists_ofText (t : Text) (r : RandomStream) : ∃ generated, (ofText t r).1 = build t generated := by
  rw [ofText]
  split
  · exact ⟨_, rfl⟩
  · exact ⟨_, rfl⟩

/-! ### Main statement -/

/-- The autofill of a scan applies, and whatever the random bytes are that the second scan draws, it is
the first one with the value filled in. -/
theorem rescan_after_autofill (t : Text) (r q : RandomStream) (s : Splice)
    (h : (Scan.ofText t r).1.autofill = some s) :
    ∃ t' key, s.apply t = .ok t' ∧
      Scan.FilledIn t t' (Scan.ofText t r).1 (Scan.ofText t' q).1 s key := by
  have hmem : [] ∈ privateValues t := by
    by_contra hn
    rw [Scan.autofill_eq_none_iff.2 hn] at h
    cases h
  obtain ⟨before, p, a, e, after, hf⟩ := exists_firstVacant hmem
  set pair := (KeyPair.generate r).1 with hpair
  obtain rfl : FirstVacant.splice before p a pair.secret = s := by
    rw [hf.autofill_ofText] at h
    exact Option.some.inj h
  refine ⟨FirstVacant.filled before p a e after pair.secret, pair.secret.encode, hf.apply _, ?_⟩
  obtain ⟨generated, hsecond⟩ := Scan.exists_ofText (FirstVacant.filled before p a e after pair.secret) q
  rw [hf.ofText, hsecond]
  exact hf.filledIn pair generated

/-- The first of two empty values directly follows its equals sign. -/
theorem rescan_after_autofill_two_empty :
    let t := "PrivateKey=\r\nDNS = x\rprivatekey = \n".toList
    let s := Splice.insert 11 " AAAAAAAAAAAAAAAAAAAAAAAAAAAAAAAAAAAAAAAAAEA=".toList
    (Scan.ofText t (.cycle [0])).1.autofill = some s ∧
      ∃ t' key, s.apply t = .ok t' ∧
        Scan.FilledIn t t' (Scan.ofText t (.cycle [0])).1 (Scan.ofText t' (.cycle [7])).1 s key := by
  intro t s
  have h : (Scan.ofText t (.cycle [0])).1.autofill = some s := by decide +kernel
  exact ⟨h, rescan_after_autofill t (.cycle [0]) (.cycle [7]) s h⟩

end TunnelConf
