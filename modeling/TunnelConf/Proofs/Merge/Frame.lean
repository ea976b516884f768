import TunnelConf.Proofs.Merge.Target
import TunnelConf.Proofs.Scan.Annotations
import TunnelConf.Proofs.Splice

/-!
# What merging leaves alone

`SameElsewhere` says that two texts have the same matches and annotations, up to where they stand,
except on one line. A text and the text with a value merged into it are such, whatever the value
holds besides line endings: `SameElsewhere.of_lines` for a key that has a line, where the line stays
one of the key (`KeyLine.OnTarget`), and `SameElsewhere.of_appended` for a key that has none.
-/

namespace TunnelConf

open Text Line
open Annotation (Kept)

/-- The splice replaces a part of the body of one line. -/
def Splice.WithinLine (s : Splice) (t : Text) : Prop :=
  ∃ before l after a b c, ofVisual t = before ++ l :: after ∧ l.body = a ++ (b ++ c) ∧
    s.start = size (textOf before) + size a ∧ s.len = size b

theorem Splice.WithinLine.isBoundary {s : Splice} {t : Text} (h : s.WithinLine t) :
    Text.isBoundary s.start t = true ∧ Text.isBoundary s.stop t = true := by
  obtain ⟨before, l, after, a, b, c, hl, hb, hstart, hlen⟩ := h
  have hcuts : s.Cuts t (textOf before ++ a) b (c ++ (l.ending.text ++ textOf after)) := by
    refine ⟨?_, by rw [hstart, size_append], hlen.symm⟩
    rw [← textOf_ofVisual t, hl, textOf_append, textOf_cons, Line.text, hb]
    simp
  exact ⟨hcuts.fits.start, hcuts.fits.stop⟩

/-- Two texts whose matches and annotations are the same except on the line at `n`, which is read as
`old` in the one and as `new` in the other. What stands behind the line has moved. -/
structure SameElsewhere (t t' : Text) (n : Nat) (before : List LineMatch) (old new : Option LineMatch)
    (after after' : List LineMatch) : Prop where
  original : scanLines t = before ++ old.toList ++ after
  edited : scanLines t' = before ++ new.toList ++ after'
  before_lt : ∀ m ∈ before, m.offset < n
  lt_after : ∀ m ∈ after, n < m.offset
  moved : List.Forall₂ (LineMatch.MovedBy ((size t' : Int) - size t)) after after'
  kept_before : List.Forall₂ (Kept t t' 0)
    (before.flatMap Scan.annotate) (before.flatMap Scan.annotate)
  kept_after : List.Forall₂ (Kept t t' ((size t' : Int) - size t))
    (after.flatMap Scan.annotate) (after'.flatMap Scan.annotate)

namespace SameElsewhere

variable {t t' : Text} {n : Nat} {before after after' : List LineMatch} {old new : Option LineMatch}

theorem annotations (h : SameElsewhere t t' n before old new after after') (r : RandomStream) :
    (Scan.ofText t r).1.annotations = before.flatMap Scan.annotate ++
      old.toList.flatMap Scan.annotate ++ after.flatMap Scan.annotate := by
  rw [Scan.annotations_ofText, h.original, List.flatMap_append, List.flatMap_append]

theorem annotations_edited (h : SameElsewhere t t' n before old new after after') (r : RandomStream) :
    (Scan.ofText t' r).1.annotations = before.flatMap Scan.annotate ++
      new.toList.flatMap Scan.annotate ++ after'.flatMap Scan.annotate := by
  rw [Scan.annotations_ofText, h.edited, List.flatMap_append, List.flatMap_append]

theorem of_lines {ls ms : List Line} {l l' : Line} (h : ofVisual t = ls ++ l :: ms)
    (h' : ofVisual t' = ls ++ l' :: ms) (hne : l.text ≠ []) :
    SameElsewhere t t' (size (textOf ls)) (LineMatch.ofLines 0 ls)
      ((LineForm.ofBody? l.body).map (LineMatch.mk (size (textOf ls))))
      ((LineForm.ofBody? l'.body).map (LineMatch.mk (size (textOf ls))))
      (LineMatch.ofLines (size (textOf ls) + size l.text) ms)
      (LineMatch.ofLines (size (textOf ls) + size l'.text) ms) := by
  have ht : t = textOf ls ++ (l.text ++ textOf ms) := by
    rw [← textOf_ofVisual t, h, textOf_append, textOf_cons]
  have ht' : t' = textOf ls ++ (l'.text ++ textOf ms) := by
    rw [← textOf_ofVisual t', h', textOf_append, textOf_cons]
  have hd : (size t' : Int) - size t =
      ((size (textOf ls) + size l'.text : Nat) : Int) - (size (textOf ls) + size l.text : Nat) := by
    rw [ht, ht']; simp only [size_append]; omega
  refine ⟨LineMatch.scanLines_of_lines h, LineMatch.scanLines_of_lines h', fun m hm => ?_, fun m hm => ?_,
    ?_, ?_, ?_⟩
  · simpa using LineMatch.offset_lt_of_mem_ofLines hm
  · have := LineMatch.le_offset_of_mem_ofLines hm
    have := size_pos_iff.2 hne
    omega
  · rw [hd]; exact LineMatch.forall₂_movedBy_ofLines _ _ ms
  · have := Scan.forall₂_kept [] [] ls (l.text ++ textOf ms) (l'.text ++ textOf ms)
    rw [List.nil_append, List.nil_append, ← ht, ← ht'] at this
    simpa using this
  · have := Scan.forall₂_kept (textOf ls ++ l.text) (textOf ls ++ l'.text) ms [] []
    rw [List.append_nil, List.append_assoc, List.append_assoc, ← ht, ← ht'] at this
    rw [hd]
    simpa only [size_append] using this

/-- A line behind the end of a text. -/
theorem of_appended (t : Text) {b : Text} (hb : IsBody b) :
    SameElsewhere t (t ++ '\n' :: b) (size t + 1) (scanLines t) none
      ((LineForm.ofBody? b).map (LineMatch.mk (size t + 1))) [] [] := by
  have hlines : scanLines (t ++ '\n' :: b) =
      scanLines t ++ ((LineForm.ofBody? b).map (LineMatch.mk (size t + 1))).toList := by
    rw [LineMatch.scanLines_append_lf, LineMatch.scanLines_eq_ofLines b, ofVisual_of_isBody hb,
      LineMatch.ofLines_cons]
    refine congrArg _ ?_
    cases LineForm.ofBody? b with
    | none => rfl
    | some f => rfl
  refine ⟨by simp, by simpa using hlines, fun m hm => ?_, by simp, .nil, ?_, .nil⟩
  · rw [LineMatch.scanLines_eq_ofLines] at hm
    have := LineMatch.offset_lt_of_mem_ofLines hm
    rw [textOf_ofVisual] at this
    omega
  · have := Scan.forall₂_kept [] [] (ofVisual t) [] ('\n' :: b)
    rw [textOf_ofVisual] at this
    rw [LineMatch.scanLines_eq_ofLines]
    simpa using this

end SameElsewhere

namespace KeyLine

variable {key : KeyName} {t value : Text} {before after : List Line} {k : KeyLine} {e : Ending}

theorem FirstLine.withinLine (h : FirstLine key t before k e after) (value : Text) :
    (TunnelConf.mergeInsert t key value).WithinLine t := by
  obtain ⟨mid, old, new, hr, -, -, hs⟩ := add_eq_replace k value (size (textOf before))
  refine ⟨before, ⟨k.render, e⟩, after, k.lead ++ k.name ++ mid, old, [], h.lines, by simp [hr], ?_, ?_⟩
  · rw [h.mergeInsert, hs]; rfl
  · rw [h.mergeInsert, hs]; simp [Splice.replace]

theorem withinLine_insert (t u : Text) : (Splice.insert (size t) u).WithinLine t := by
  obtain ⟨before, body, hls⟩ := (proper_ofVisual t).exists_last
  have hsize := congrArg (size ∘ textOf) hls
  have : size t = size (textOf before) + size body := by
    simpa [textOf_ofVisual, Line.text, Ending.text] using hsize
  exact ⟨before, ⟨body, .none⟩, [], body, [], [], hls, by simp, this, by simp [Splice.insert, Splice.replace]⟩

/-- What the scanner reads on the line of a key, if anything, is a pair with the name on that line. -/
def ReadsAs (n : Nat) (k : KeyLine) (m : Option LineMatch) : Prop :=
  ∀ o ∈ m, ∃ p, o = ⟨n, .pair p⟩ ∧ p.lead = k.lead ∧ p.name = k.name

theorem readsAs_of_fits (h : k.Fits key.text) (n : Nat) :
    k.ReadsAs n ((LineForm.ofBody? k.render).map (LineMatch.mk n)) := by
  intro o ho
  obtain ⟨f, hf, rfl⟩ := Option.map_eq_some_iff.1 (Option.mem_def.1 ho)
  obtain ⟨p, rfl, hp⟩ := exists_pair_of_ofBody?_render h hf
  exact ⟨p, rfl, hp⟩

theorem isSome_ofBody?_added (h : k.Fits key.text) (value : Text) :
    (LineForm.ofBody? (k.added value).render).isSome = true ↔ Ascii k.name := by
  constructor
  · intro hs
    by_contra ha
    rw [ofBody?_render_of_not_ascii (h.added value) (by rwa [name_added])] at hs
    cases hs
  · intro ha
    rw [ofBody?_render_of_ascii (h.added value) (by rwa [name_added])]
    obtain ⟨gap, hk, -⟩ := added_eq k value
    rw [hk]; rfl

theorem ascii_of_isSome_ofBody? (h : k.Fits key.text) (hs : (LineForm.ofBody? k.render).isSome = true) :
    Ascii k.name := by
  by_contra ha
  rw [ofBody?_render_of_not_ascii h ha] at hs
  cases hs

/-- The line on which two texts differ is the first line of the key, or the last line of the text
with the value if the key has no line. -/
structure OnTarget (t : Text) (key : KeyName) (n : Nat) (old new : Option LineMatch)
    (after : List LineMatch) : Prop where
  found : ∀ i k, find? key.text t = some (i, k) → n = i ∧ k.ReadsAs n old ∧ k.ReadsAs n new ∧
    (old.isSome = true → new.isSome = true) ∧ (new.isSome = true ↔ Ascii k.name)
  absent : find? key.text t = none → n = size t + 1 ∧ old = none ∧ after = [] ∧
    ∃ p, new = some ⟨n, .pair p⟩ ∧ p.name = key.text

theorem FirstLine.sameElsewhere (h : FirstLine key t before k e after) (hv : IsBody value) :
    SameElsewhere t (FirstLine.result before k e after value) (size (textOf before))
      (LineMatch.ofLines 0 before)
      ((LineForm.ofBody? k.render).map (LineMatch.mk (size (textOf before))))
      ((LineForm.ofBody? (k.added value).render).map (LineMatch.mk (size (textOf before))))
      (LineMatch.ofLines (size (textOf before) + size (Line.text ⟨k.render, e⟩)) after)
      (LineMatch.ofLines (size (textOf before) + size (Line.text ⟨(k.added value).render, e⟩)) after) := by
  refine .of_lines h.lines (h.ofVisual_edited hv) ?_
  simp [Line.text, render, h.fits.spells.ne_nil]

theorem FirstLine.onTarget (h : FirstLine key t before k e after) (value : Text)
    (ms : List LineMatch) : OnTarget t key (size (textOf before))
      ((LineForm.ofBody? k.render).map (LineMatch.mk (size (textOf before))))
      ((LineForm.ofBody? (k.added value).render).map (LineMatch.mk (size (textOf before)))) ms := by
  constructor
  · intro i j hf
    obtain ⟨rfl, rfl⟩ := Prod.mk.inj (Option.some.inj (h.find?.symm.trans hf))
    refine ⟨rfl, readsAs_of_fits h.fits _, ?_, ?_, ?_⟩
    · have := readsAs_of_fits (h.fits.added value) (size (textOf before))
      rwa [ReadsAs, lead_added, name_added] at this
    · rw [Option.isSome_map, Option.isSome_map]
      exact fun hs => (isSome_ofBody?_added h.fits value).2 (ascii_of_isSome_ofBody? h.fits hs)
    · rw [Option.isSome_map]
      exact isSome_ofBody?_added h.fits value
  · intro hf
    rw [h.find?] at hf
    cases hf

theorem ofBody?_fresh (key : KeyName) (value : Text) :
    ∃ p, LineForm.ofBody? (fresh key value).render = some (.pair p) ∧ p.name = key.text := by
  have ha : Ascii (fresh key value).name := KeyName.ascii_of_isAlphanumeric key.isAlphanumeric_of_mem
  exact ⟨_, ofBody?_render_of_ascii (fits_fresh key value) ha, rfl⟩

end KeyLine

/-- Merging a value without line endings changes one line, that of the key. Every other line keeps its
form and its annotations, and stays where it is or moves by what the text has grown. -/
theorem mergeInsert_keeps_other_lines (t : Text) (key : KeyName) (value : Text) (hv : IsBody value) :
    ∃ result n before old new after after',
      (mergeInsert t key value).apply t = .ok result ∧
      (mergeInsert t key value).WithinLine t ∧
      isBoundary (mergeInsert t key value).start t = true ∧
      isBoundary (mergeInsert t key value).stop t = true ∧
      SameElsewhere t result n before old new after after' ∧
      KeyLine.OnTarget t key n old new after ∧
      (∀ r, (Scan.ofText t r).1.annotations = before.flatMap Scan.annotate ++
        old.toList.flatMap Scan.annotate ++ after.flatMap Scan.annotate) ∧
      (∀ r, (Scan.ofText result r).1.annotations = before.flatMap Scan.annotate ++
        new.toList.flatMap Scan.annotate ++ after'.flatMap Scan.annotate) := by
  cases hf : KeyLine.find? key.text t with
  | none =>
    have hw : (mergeInsert t key value).WithinLine t := by
      rw [KeyLine.mergeInsert_of_find?_eq_none hf]
      exact KeyLine.withinLine_insert t _
    have hs := SameElsewhere.of_appended t (KeyLine.isBody_fresh key hv)
    obtain ⟨p, hp, hname⟩ := KeyLine.ofBody?_fresh key value
    refine ⟨_, _, _, _, _, _, _, KeyLine.apply_of_find?_eq_none hf value, hw, hw.isBoundary.1,
      hw.isBoundary.2, hs, ⟨fun i k h => ?_, fun _ => ⟨rfl, rfl, rfl, p, ?_, hname⟩⟩, hs.annotations,
      hs.annotations_edited⟩
    · rw [hf] at h; cases h
    · rw [hp]; rfl
  | some q =>
    obtain ⟨n, k⟩ := q
    obtain ⟨before, e, after, hfl, rfl⟩ := KeyLine.exists_firstLine hf
    have hw := hfl.withinLine value
    have hs := hfl.sameElsewhere hv
    exact ⟨_, _, _, _, _, _, _, hfl.apply value, hw, hw.isBoundary.1, hw.isBoundary.2, hs,
      hfl.onTarget value _, hs.annotations, hs.annotations_edited⟩

/-- A value that looks like a header and a comment, behind a text that ends with a lone CR, which the
LF of the new line makes a CRLF. -/
theorem mergeInsert_keeps_other_lines_final_cr :
    ∃ result p, (mergeInsert "[Peer]\r# DNS = 1\rMTU = 1\r".toList ⟨"DNS".toList, by decide, by decide⟩
        "[x] = # ;".toList).apply "[Peer]\r# DNS = 1\rMTU = 1\r".toList = .ok result ∧
      scanLines result = scanLines "[Peer]\r# DNS = 1\rMTU = 1\r".toList ++ [⟨26, .pair p⟩] ∧
      p.name = "DNS".toList := by
  obtain ⟨result, n, before, old, new, after, after', hr, -, -, -, hs, ht, -⟩ :=
    mergeInsert_keeps_other_lines "[Peer]\r# DNS = 1\rMTU = 1\r".toList
      ⟨"DNS".toList, by decide, by decide⟩ "[x] = # ;".toList (by simp [IsBody])
  obtain ⟨rfl, rfl, rfl, p, rfl, hp⟩ := ht.absent (by decide)
  obtain rfl : after' = [] := List.forall₂_nil_left_iff.1 hs.moved
  refine ⟨result, p, hr, ?_, hp⟩
  have hsize : size "[Peer]\r# DNS = 1\rMTU = 1\r".toList + 1 = 26 := by decide
  rw [hs.edited, hs.original, hsize]
  simp

end TunnelConf
