import TunnelConf.Proofs.Scan.LinePattern

/-!
# The groups that the pattern of lines finds

A line that is read as a form follows the pattern with the spans of the form (`first_line_render`), and no
other line does (`first_line_of_none`). Main statement: `groupsIn_line`, one search for the pattern in the
whole text finds what reading line by line finds.
-/

namespace TunnelConf

open Text Pattern Spot

/-! ### Forms and their spans -/

namespace LineForm

theorem render_header (lead name trail : Text) :
    (LineForm.header lead name trail).render = lead ++ ('[' :: name ++ [']']) ++ trail := by
  simp [render]

theorem render_bare (lead name gap : Text) :
    (LineForm.pair ⟨lead, name, gap, none⟩).render = lead ++ name ++ gap := by
  rw [render, Pair.render, Option.elim_none, List.append_nil]

theorem render_assigned (lead name gap : Text) (x : Assignment) :
    (LineForm.pair ⟨lead, name, gap, some x⟩).render =
      lead ++ name ++ gap ++ '=' :: (x.after ++ x.value ++ x.trail) := by
  simp [render, Pair.render, Assignment.render]

end LineForm

namespace LineMatch

variable (n : Nat)

theorem spans_comment (lead : Text) (m : Marker) (rest : Text) :
    (mk n (.comment lead m rest)).spans = [⟨n + size lead, size (m.char :: rest), .comment⟩] := by
  cases m with
  | hash => rfl
  | semicolon => rfl

theorem spans_header (lead name trail : Text) :
    (mk n (.header lead name trail)).spans = [⟨n + size lead, size ('[' :: name ++ [']']), .header⟩] := by
  have h₁ : ('[' : Char).utf8Size = 1 := rfl
  have h₂ : (']' : Char).utf8Size = 1 := rfl
  have hsize : size ('[' :: name ++ [']']) = size name + 2 := by
    simp only [size_append, size_cons, size_nil, h₁, h₂]
    omega
  rw [hsize]
  rfl

theorem spans_assigned (lead name gap : Text) (x : Assignment) :
    (mk n (.pair ⟨lead, name, gap, some x⟩)).spans =
      [⟨n + size lead, size name, .key⟩,
        ⟨n + size (lead ++ name ++ gap ++ '=' :: x.after), size x.value, .value⟩] := by
  have he : ('=' : Char).utf8Size = 1 := rfl
  have hsize : n + size (lead ++ name ++ gap ++ '=' :: x.after) =
      n + size lead + size name + size gap + 1 + size x.after := by
    simp only [size_append, size_cons, he]
    omega
  rw [hsize]
  rfl

end LineMatch

namespace LinePattern

variable {total : Nat} {a b : Text}

/-! ### Line by line -/

/-- A line that is read as a form is taken with the spans of the form. -/
theorem first_line_render {f : LineForm} (hf : f.Fits) (hbody : Line.IsBody f.render) (hb : EndsLine b)
    (hstart : AtLineStart a (f.render ++ b)) (htotal : total = size a + size (f.render ++ b)) :
    first total line some ⟨between a (f.render ++ b), []⟩ =
      some ⟨between (a ++ f.render) b, (LineMatch.mk (size a) f).spans.map Span.group⟩ := by
  cases f with
  | comment lead m rest =>
    have hrender : (LineForm.comment lead m rest).render ++ b = lead ++ (m.char :: rest ++ b) := by
      simp [LineForm.render]
    have hplace : a ++ lead ++ m.char :: rest = a ++ (LineForm.comment lead m rest).render := List.append_assoc ..
    have hrest : Line.IsBody rest := (Line.isBody_cons.1 (Line.isBody_append.1 hbody).2).2
    have hs : Stops isBlank (m.char :: rest ++ b) := stops_cons.2 m.isBlank_char
    rw [hrender] at hstart htotal ⊢
    rw [first_line hf hs hstart, first_comment m hrest hb, Option.some_or, hplace, size_append,
      LineMatch.spans_comment]
    · rfl
    · rw [htotal]; simp only [size_append]; omega
  | header lead name trail =>
    obtain ⟨hlead, hname, hne, htrail⟩ := hf
    have hrender : (LineForm.header lead name trail).render ++ b =
        lead ++ ('[' :: (name ++ ']' :: (trail ++ b))) := by simp [LineForm.render]
    have hplace : a ++ lead ++ ('[' :: name ++ [']']) ++ trail =
        a ++ (LineForm.header lead name trail).render := by simp [LineForm.render]
    have hs : Stops isBlank ('[' :: (name ++ ']' :: (trail ++ b))) := stops_cons.2 (by decide)
    have hm : ∀ c ∈ ('[' :: (name ++ ']' :: (trail ++ b))).head?, Marker.ofChar? c = none := by
      rintro _ ⟨⟩; decide
    have hlast : (a ++ lead ++ ('[' :: name ++ [']'])).getLast? ≠ some '\r' := by
      rw [← List.append_assoc, List.getLast?_concat]
      decide
    rw [hrender] at hstart htotal ⊢
    rw [first_line hlead hs hstart, first_comment_of_stops hm, first_header hname hne,
      first_ending_of_blank htrail hb hlast, hplace, size_append, LineMatch.spans_header]
    · rfl
    · rw [htotal]; simp only [size_append]; omega
  | pair p =>
    have hrender : (LineForm.pair p).render ++ b =
        p.lead ++ (p.name ++ (p.gap ++ (p.assignment.elim [] Assignment.render ++ b))) := by
      simp [LineForm.render, Pair.render]
    obtain ⟨c, name, hn⟩ := List.exists_cons_of_ne_nil hf.name_ne
    have hc : isAlphanumeric c = true := hf.name c (by simp [hn])
    have hhead : (p.name ++ (p.gap ++ (p.assignment.elim [] Assignment.render ++ b))).head? = some c := by
      rw [hn]; rfl
    rw [hrender] at hstart ⊢
    rw [first_line hf.lead _ hstart, first_comment_of_stops, first_header_of_ne, first_pair hf hbody hb htotal]
    · rfl
    · rw [hhead]; rintro _ ⟨⟩ rfl; exact absurd hc (by decide)
    · rw [hhead]; rintro _ ⟨⟩; exact Marker.ofChar?_of_isAlphanumeric hc
    · intro d hd; rw [hhead] at hd; cases hd; exact isBlank_of_isAlphanumeric hc

theorem first_header_of_none {lead w : Text} {g : List Group} (hlead : ∀ c ∈ lead, isBlank c = true)
    (h : LineForm.ofBody? (lead ++ '[' :: w) = none) (hbody : Line.IsBody w) (hb : EndsLine b)
    (htotal : total = size a + size ('[' :: (w ++ b))) :
    first total header (first total ending some) ⟨between a ('[' :: (w ++ b)), g⟩ = none := by
  obtain ⟨name, y, rfl, hname, hy⟩ := exists_run isWord w
  have hyb : Stops isWord (y ++ b) := hy.append (hb.stops (by decide +kernel) (by decide +kernel))
  rw [List.append_assoc] at htotal ⊢
  by_cases hclosed : name ≠ [] ∧ y.head? = some ']'
  · obtain ⟨hne, hhead⟩ := hclosed
    obtain ⟨trail, rfl⟩ : ∃ trail, y = ']' :: trail := by
      cases y with
      | nil => cases hhead
      | cons d trail => exact ⟨trail, by rw [Option.some.inj hhead]⟩
    obtain ⟨v, z, rfl, hv, hz⟩ := exists_run isBlank trail
    cases z with
    | nil =>
      -- the line would be a header
      rw [List.append_nil] at h
      have hsome := LineForm.ofBody?_of_fits (f := .header lead name v) ⟨hlead, hname, hne, hv⟩
      have hrender : (LineForm.header lead name v).render = lead ++ '[' :: (name ++ ']' :: v) := by
        simp [LineForm.render]
      rw [hrender, h] at hsome
      cases hsome
    | cons d z =>
      have hd : d ≠ '\r' ∧ d ≠ '\n' := hbody d (by simp)
      rw [List.cons_append] at htotal ⊢
      rw [first_header hname hne htotal, List.append_assoc]
      exact first_ending_of_not hv (stops_cons.1 hz) hd
  · refine first_header_of_not hname hyb ?_
    by_cases hne : name = []
    · exact .inl hne
    · right
      intro c hc
      rintro rfl
      cases y with
      | nil =>
        rcases hb _ hc with hc | hc
        · exact absurd hc (by decide)
        · exact absurd hc (by decide)
      | cons d y => exact hclosed ⟨hne, hc⟩

theorem first_pair_of_none {lead rest : Text} {g : List Group} (h : Pair.ofRest? lead rest = none)
    (hlead : ∀ c ∈ lead, isBlank c = true) (hbody : Line.IsBody rest) (hb : EndsLine b)
    (htotal : total = size a + size (rest ++ b)) :
    first total pair (first total ending some) ⟨between a (rest ++ b), g⟩ = none := by
  obtain ⟨name, y, rfl, hname, hy⟩ := exists_run isAlphanumeric rest
  have hyb : Stops isAlphanumeric (y ++ b) := hy.append (hb.stops (by decide) (by decide))
  rw [List.append_assoc] at htotal ⊢
  by_cases hne : name = []
  · rw [hne, List.nil_append]
    exact first_pair_of_stops hyb
  · obtain ⟨gap, z, rfl, hgap, hz⟩ := exists_run isBlank y
    rw [first_key hname hne hyb htotal]
    cases z with
    | nil =>
      -- the line would be a bare key
      have hsome := Pair.ofRest?_of_fits (p := ⟨lead, name, gap, none⟩) ⟨hlead, hname, hne, hgap, by simp⟩
      rw [Option.elim_none, h] at hsome
      cases hsome
    | cons c z =>
      by_cases he : c = '='
      · -- the line would be an assignment
        subst he
        have hsome := Pair.ofRest?_of_fits (p := ⟨lead, name, gap, some (.ofRest z)⟩)
          ⟨hlead, hname, hne, hgap, by simpa using Assignment.fits_ofRest z⟩
        rw [Option.elim_some, Assignment.render_ofRest, h] at hsome
        cases hsome
      · rw [List.append_assoc, List.cons_append]
        exact first_afterKey_of_not gap hgap (stops_cons.1 hz) he (hbody c (by simp))

theorem first_line_of_none {body : Text} (h : LineForm.ofBody? body = none) (hbody : Line.IsBody body)
    (hb : EndsLine b) (hstart : AtLineStart a (body ++ b)) (htotal : total = size a + size (body ++ b)) :
    first total line some ⟨between a (body ++ b), []⟩ = none := by
  obtain ⟨lead, rest, rfl, hlead, hrest⟩ := exists_run isBlank body
  have hbodyrest : Line.IsBody rest := (Line.isBody_append.1 hbody).2
  have hsize : total = size (a ++ lead) + size (rest ++ b) := by
    rw [htotal]; simp only [size_append]; omega
  rw [List.append_assoc] at hstart ⊢
  cases rest with
  | nil =>
    refine first_line_of_not hlead hstart fun c hc => ?_
    rcases hb c hc with rfl | rfl
    · decide
    · decide
  | cons c w =>
    have hc : isBlank c = false := stops_cons.1 hrest
    have hs : Stops isBlank (c :: w ++ b) := stops_cons.2 hc
    cases hm : Marker.ofChar? c with
    | some m =>
      obtain rfl := Marker.char_of_ofChar? hm
      have hsome := LineForm.ofBody?_of_fits (f := .comment lead m w) hlead
      rw [LineForm.render, h] at hsome
      cases hsome
    | none =>
      have hcomment : ∀ d ∈ (c :: w ++ b).head?, Marker.ofChar? d = none := by rintro _ ⟨⟩; exact hm
      rw [first_line hlead hs hstart, first_comment_of_stops hcomment]
      by_cases hbr : c = '['
      · subst hbr
        have hpair : Stops isAlphanumeric ('[' :: w ++ b) := stops_cons.2 (by decide)
        rw [List.cons_append, first_header_of_none hlead h (Line.isBody_cons.1 hbodyrest).2 hb hsize,
          ← List.cons_append, first_pair_of_stops hpair]
        rfl
      · have hnone := h
        rw [LineForm.ofBody?_append_cons hlead hc hm hbr, Option.map_eq_none_iff] at hnone
        rw [first_header_of_ne, first_pair_of_none hnone hlead hbodyrest hb hsize]
        · rfl
        · rintro _ ⟨⟩; exact hbr

/-- The pattern is followed from the start of a line only, and it takes the lines that have a form. -/
theorem readsLines_line (total : Nat) : ReadsLines total line fun n body =>
    (LineForm.ofBody? body).map fun f => (LineMatch.mk n f).spans.map Span.group where
  start := by
    intro r hr
    rw [line, reaches, reaches, List.flatMap_cons, reaches_look_sequence hr]
    rfl
  nil := fun n => rfl
  line := by
    intro a body b htotal hstart hbody hb
    rw [head?_reaches]
    cases h : LineForm.ofBody? body with
    | none => exact first_line_of_none h hbody hb hstart htotal
    | some f =>
      obtain ⟨rfl, hf⟩ := LineForm.ofBody?_eq_some_iff.1 h
      exact first_line_render hf hbody hb hstart htotal

/-- One pattern, searched for in the whole text, finds the recognised lines with their spans. -/
theorem groupsIn_line (t : Text) :
    line.groupsIn t = (scanLines t).map fun m => m.spans.map Span.group := by
  rw [(readsLines_line (size t)).groupsIn_eq, scanLines, List.map_filterMap]
  simp only [Option.map_map]
  rfl

end LinePattern

end TunnelConf
