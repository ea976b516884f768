import TunnelConf.Pattern.Meaning
import TunnelConf.Proofs.Grammar
import TunnelConf.Proofs.Pattern.Search

/-!
# The pattern of recognised lines

`LinePattern.line` is one pattern for the lines of all three kinds (`ofText?_lineGrammar`).
-/

namespace TunnelConf

open Text Pattern Spot

/-! ### Spans as groups -/

/-- The name of the groups for spans of a role. -/
def Role.groupName : Role → Text
  | .comment => "comment".toList
  | .header => "section".toList
  | .key => "key".toList
  | .value => "value".toList

def Span.group (s : Span) : Group := ⟨s.role.groupName, s.start, s.len⟩

/-- The span of a comment, of a header or of a key, and that of the value if there is one. -/
def LineMatch.spans (m : LineMatch) : List Span :=
  match m.form with
  | .pair p => p.keySpan m.offset :: (p.valueSpan? m.offset).toList
  | _ => [m.span]

/-! ### The pattern -/

/-- Comments, section headers and pairs, with the parts that matter in groups with names. -/
def lineGrammar : Text :=
  ("(?mR)^[ \\t]*(?:(?P<comment>[;#].*)|(?P<section>\\[\\w+\\])|" ++
    "(?P<key>[A-Za-z0-9]+)(?:[ \\t]*=[ \\t]*(?P<value>.*?))?)[ \\t]*$").toList

namespace LinePattern

def blank : CharClass := .bracketed false (.union [.char ' ', .char '\t'])

def marker : CharClass := .bracketed false (.union [.char ';', .char '#'])

def inLine : CharClass := .bracketed true (.union [.char '\r', .char '\n'])

def word : CharClass := .letter .word false

def alphanumeric : CharClass := .bracketed false (.union [.range 'A' 'Z', .range 'a' 'z', .range '0' '9'])

def blanks : Pattern := .repeated .zeroOrMore true (one blank)

def comment : Pattern :=
  .group (some "comment".toList) (.sequence (one marker) (.sequence (.repeated .zeroOrMore true (one inLine)) .empty))

def header : Pattern :=
  .group (some "section".toList) (.sequence (one (only '['))
    (.sequence (.repeated .oneOrMore true (one word)) (.sequence (one (only ']')) .empty)))

def key : Pattern := .group (some "key".toList) (.repeated .oneOrMore true (one alphanumeric))

def value : Pattern := .group (some "value".toList) (.repeated .zeroOrMore false (one inLine))

def assignment : Pattern :=
  .group none (.sequence blanks (.sequence (one (only '=')) (.sequence blanks (.sequence value .empty))))

def pair : Pattern := .sequence key (.sequence (.repeated .zeroOrOne true assignment) .empty)

def ending : Pattern := .sequence blanks (.sequence (.look .anyLineEnd) .empty)

def line : Pattern :=
  .sequence .empty (.sequence (.look .anyLineStart)
    (.sequence blanks (.sequence (.group none (.choice comment (.choice header pair))) ending)))

set_option maxRecDepth 20000 in
theorem ofText?_lineGrammar : Pattern.ofText? lineGrammar = some line := by rfl

/-! ### Classes -/

theorem admits_blank : blank.admits false = isBlank := by
  funext c
  simp [blank, CharClass.admits, CharClass.anyAdmits, CharClass.upToCase, isBlank]

theorem admits_word : word.admits false = isWord := by
  funext c
  simp [word, CharClass.admits, LetterClass.admits]

theorem admits_alphanumeric : alphanumeric.admits false = isAlphanumeric := by
  funext c
  simp only [alphanumeric, CharClass.admits, CharClass.anyAdmits, CharClass.upToCase, isAlphanumeric,
    Bool.or_false, Bool.bne_false, Bool.false_eq_true, if_false]
  cases decide ('0' ≤ c) && decide (c ≤ '9') <;> simp

theorem admits_marker {c : Char} : marker.admits false c = (Marker.ofChar? c).isSome := by
  simp only [marker, CharClass.admits, CharClass.anyAdmits, CharClass.upToCase, Marker.ofChar?]
  by_cases h₁ : c = '#'
  · simp [h₁]
  · by_cases h₂ : c = ';'
    · simp [h₂]
    · simp [h₁, h₂]

theorem admits_inLine {c : Char} : inLine.admits false c = true ↔ c ≠ '\r' ∧ c ≠ '\n' := by
  simp [inLine, CharClass.admits, CharClass.anyAdmits, CharClass.upToCase]

theorem stops_inLine {b : Text} (hb : EndsLine b) : Stops (inLine.admits false) b := by
  refine hb.stops ?_ ?_
  · rw [Bool.eq_false_iff, ne_eq, admits_inLine]; exact fun h => h.1 rfl
  · rw [Bool.eq_false_iff, ne_eq, admits_inLine]; exact fun h => h.2 rfl

section Parts
variable {α : Type} {total : Nat} {k : Reach → Option α} {p : Pattern} {a b u : Text} {g : List Group}

theorem first_blanks {w y : Text} (hw : ∀ c ∈ w, isBlank c = true) (hy : Stops isBlank y)
    (hk : k ⟨between (a ++ w) y, g⟩ = none →
      ∀ x v, w = x ++ v → v ≠ [] → k ⟨between (a ++ x) (v ++ y), g⟩ = none) :
    first total blanks k ⟨between a (w ++ y), g⟩ = k ⟨between (a ++ w) y, g⟩ := by
  rw [blanks, one, first_longest]
  · rw [admits_blank]; exact hw
  · rw [admits_blank]; exact hy
  · exact hk

theorem first_only_of_ne {d : Char} (h : ∀ c ∈ b.head?, c ≠ d) :
    first total (.sequence (one (only d)) p) k ⟨between a b, g⟩ = none := by
  rw [first_sequence, one, first_oneOf_of_stops]
  intro c hc
  rw [admits_only, beq_eq_false_iff_ne]
  exact h c hc

/-! ### The end of a line -/

theorem isBody_of_isBlank {w : Text} (hw : ∀ c ∈ w, isBlank c = true) : Line.IsBody w := by
  intro c hc
  have hd := hw c hc
  exact ⟨by rintro rfl; exact absurd hd (by decide), by rintro rfl; exact absurd hd (by decide)⟩

theorem first_ending {w y : Text} (hw : ∀ c ∈ w, isBlank c = true) (hy : Stops isBlank y) :
    first total ending some ⟨between a (w ++ y), g⟩ =
      if Look.holds (between (a ++ w) y) .anyLineEnd then some ⟨between (a ++ w) y, g⟩ else none := by
  rw [ending, first_sequence, first_blanks hw hy, first_sequence, first_look]
  · split
    · rw [first_empty]
    · rfl
  · -- no line ends in front of a blank
    rintro - x v rfl hv
    obtain ⟨d, v, rfl⟩ := List.exists_cons_of_ne_nil hv
    rw [first_sequence, first_look, if_neg]
    rw [holds_anyLineEnd_iff]
    exact not_atLineEnd_cons (isBody_of_isBlank hw d (by simp))

theorem first_ending_of_blank {w : Text} (hw : ∀ c ∈ w, isBlank c = true) (hb : EndsLine b)
    (ha : a.getLast? ≠ some '\r') :
    first total ending some ⟨between a (w ++ b), g⟩ = some ⟨between (a ++ w) b, g⟩ := by
  have hlast := getLast?_append_ne ha (isBody_of_isBlank hw)
  rw [first_ending hw (hb.stops (by decide) (by decide)), if_pos]
  rw [holds_anyLineEnd_iff]
  exact hb.atLineEnd hlast

theorem first_ending_self (hb : EndsLine b) (ha : a.getLast? ≠ some '\r') :
    first total ending some ⟨between a b, g⟩ = some ⟨between a b, g⟩ := by
  have hend : first total ending some ⟨between a ([] ++ b), g⟩ = some ⟨between (a ++ []) b, g⟩ :=
    first_ending_of_blank (fun c hc => by cases hc) hb ha
  rwa [List.append_nil] at hend

/-- The line goes on behind its blanks. -/
theorem first_ending_of_not {w y : Text} {c : Char} (hw : ∀ c ∈ w, isBlank c = true)
    (hc : isBlank c = false) (hne : c ≠ '\r' ∧ c ≠ '\n') :
    first total ending some ⟨between a (w ++ c :: y), g⟩ = none := by
  rw [first_ending hw (stops_cons.2 hc), if_neg]
  rw [holds_anyLineEnd_iff]
  exact not_atLineEnd_cons hne

/-! ### Comments -/

theorem first_marked_of_stops (name : Option Text) (h : ∀ c ∈ b.head?, Marker.ofChar? c = none) :
    first total (.group name (.sequence (one marker) p)) k ⟨between a b, g⟩ = none := by
  rw [first_group, first_sequence, one, first_oneOf_of_stops]
  intro c hc
  rw [admits_marker, h c hc]
  rfl

theorem first_comment_of_stops (h : ∀ c ∈ b.head?, Marker.ofChar? c = none) :
    first total comment k ⟨between a b, g⟩ = none := first_marked_of_stops _ h

theorem first_comment (m : Marker) {rest : Text} (hrest : Line.IsBody rest) (hb : EndsLine b)
    (htotal : total = size a + size (m.char :: rest ++ b)) :
    first total comment (first total ending some) ⟨between a (m.char :: rest ++ b), g⟩ =
      some ⟨between (a ++ m.char :: rest) b,
        g ++ [⟨"comment".toList, size a, size (m.char :: rest)⟩]⟩ := by
  have hm : marker.admits false m.char = true := by rw [admits_marker, Marker.ofChar?_char]; rfl
  have hbody : Line.IsBody (m.char :: rest) := Line.isBody_cons.2 ⟨by cases m <;> decide, hrest⟩
  have hlen : size (m.char :: (rest ++ b)) - size b = size (m.char :: rest) := by
    rw [← List.cons_append, size_append, Nat.add_sub_cancel]
  -- all of the line is taken, and then it ends
  have hend : first total ending some ⟨between (a ++ [m.char] ++ rest) b,
      g ++ [⟨"comment".toList, size a, size (m.char :: (rest ++ b)) - size b⟩]⟩ =
        some ⟨between (a ++ m.char :: rest) b,
          g ++ [⟨"comment".toList, size a, size (m.char :: rest)⟩]⟩ := by
    rw [hlen, List.append_assoc]
    exact first_ending_self hb (getLast?_append_isBody (List.cons_ne_nil _ _) hbody)
  rw [comment, first_group_some _ htotal, first_sequence, one, List.cons_append, first_oneOf_cons hm,
    first_sequence, one, first_longest]
  · rw [first_empty]
    exact hend
  · exact fun c hc => admits_inLine.2 (hrest c hc)
  · exact stops_inLine hb
  · intro hnone
    rw [first_empty] at hnone
    exact absurd (hend.symm.trans hnone) (by simp)

/-! ### Section headers -/

theorem first_header_of_ne (h : ∀ c ∈ b.head?, c ≠ '[') : first total header k ⟨between a b, g⟩ = none := by
  rw [header, first_group, first_only_of_ne h]

/-- The name takes all word characters that there are, for none of them is the closing bracket. -/
theorem first_name {name y : Text} (hname : ∀ c ∈ name, isWord c = true) (hne : name ≠ [])
    (hy : Stops isWord y) :
    first total (.repeated .oneOrMore true (one word)) (first total (.sequence (one (only ']')) .empty) k)
        ⟨between a (name ++ y), g⟩ =
      first total (.sequence (one (only ']')) .empty) k ⟨between (a ++ name) y, g⟩ := by
  obtain ⟨c, name, rfl⟩ := List.exists_cons_of_ne_nil hne
  rw [one, first_longest_cons]
  · rw [admits_word]; exact hname
  · rw [admits_word]; exact hy
  · rintro - x v rfl hv
    obtain ⟨d, v, rfl⟩ := List.exists_cons_of_ne_nil hv
    have hd := hname d (by simp)
    refine first_only_of_ne ?_
    rintro _ ⟨⟩ rfl
    rw [isWord_bracket] at hd
    cases hd

theorem first_header {name : Text} (hname : ∀ c ∈ name, isWord c = true) (hne : name ≠ [])
    (htotal : total = size a + size ('[' :: (name ++ ']' :: b))) :
    first total header k ⟨between a ('[' :: (name ++ ']' :: b)), g⟩ =
      k ⟨between (a ++ ('[' :: name ++ [']'])) b,
        g ++ [⟨"section".toList, size a, size ('[' :: name ++ [']'])⟩]⟩ := by
  have hopen : (only '[').admits false '[' = true := by rw [admits_only]; rfl
  have hclose : (only ']').admits false ']' = true := by rw [admits_only]; rfl
  have hb : Stops isWord (']' :: b) := stops_cons.2 isWord_bracket
  have hlen : size ('[' :: (name ++ ']' :: b)) - size b = size ('[' :: name ++ [']']) := by
    have hsplit : '[' :: (name ++ ']' :: b) = ('[' :: name ++ [']']) ++ b := by simp
    rw [hsplit, size_append, Nat.add_sub_cancel]
  rw [header, first_group_some _ htotal, first_sequence, one, first_oneOf_cons hopen, first_sequence,
    first_name hname hne hb, first_sequence, one, first_oneOf_cons hclose, first_empty]
  have happend : a ++ ['['] ++ name ++ [']'] = a ++ ('[' :: name ++ [']']) := by simp
  rw [happend, ← hlen]
  rfl

/-- A bracket opens a header only if word characters and a closing bracket follow. -/
theorem first_header_of_not {name y : Text} (hname : ∀ c ∈ name, isWord c = true) (hy : Stops isWord y)
    (h : name = [] ∨ ∀ c ∈ y.head?, c ≠ ']') :
    first total header k ⟨between a ('[' :: (name ++ y)), g⟩ = none := by
  have hopen : (only '[').admits false '[' = true := by rw [admits_only]; rfl
  rw [header, first_group, first_sequence, one, first_oneOf_cons hopen, first_sequence]
  by_cases hne : name = []
  · rw [hne, List.nil_append, one, first_oneOrMore_of_stops]
    rw [admits_word]; exact hy
  · rw [first_name hname hne hy]
    exact first_only_of_ne (h.resolve_left hne)

/-! ### Assignments -/

/-- Only blanks and an equals sign lead to what stands behind them. -/
theorem first_equals_of_ne {gap y : Text} (hgap : ∀ c ∈ gap, isBlank c = true) (hy : Stops isBlank y)
    (h : ∀ c ∈ y.head?, c ≠ '=') :
    first total (.sequence blanks (.sequence (one (only '=')) p)) k ⟨between a (gap ++ y), g⟩ = none := by
  rw [first_sequence, first_blanks hgap hy]
  · exact first_only_of_ne h
  · rintro - x v rfl hv
    obtain ⟨d, v, rfl⟩ := List.exists_cons_of_ne_nil hv
    have hd := hgap d (by simp)
    refine first_only_of_ne ?_
    rintro _ ⟨⟩ rfl
    exact absurd hd (by decide)

theorem first_equals {gap y : Text} (hgap : ∀ c ∈ gap, isBlank c = true) :
    first total (.sequence blanks (.sequence (one (only '=')) p)) k ⟨between a (gap ++ '=' :: y), g⟩ =
      first total p k ⟨between (a ++ gap ++ ['=']) y, g⟩ := by
  have heq : (only '=').admits false '=' = true := by rw [admits_only]; rfl
  rw [first_sequence, first_blanks hgap (stops_cons.2 (by decide)), first_sequence, one, first_oneOf_cons heq]
  rintro - x v rfl hv
  obtain ⟨d, v, rfl⟩ := List.exists_cons_of_ne_nil hv
  have hd := hgap d (by simp)
  refine first_only_of_ne ?_
  rintro _ ⟨⟩ rfl
  exact absurd hd (by decide)

theorem first_assignment_of_ne {gap y : Text} (hgap : ∀ c ∈ gap, isBlank c = true) (hy : Stops isBlank y)
    (h : ∀ c ∈ y.head?, c ≠ '=') : first total assignment k ⟨between a (gap ++ y), g⟩ = none := by
  rw [assignment, first_group_none]
  exact first_equals_of_ne hgap hy h

/-- A part of a value is followed by more than blanks. -/
theorem first_ending_of_value {v t : Text} (hne : v ≠ []) (hlast : EndStops isBlank v) (hv : Line.IsBody v) :
    first total ending some ⟨between a (v ++ t), g⟩ = none := by
  obtain ⟨w, y, rfl, hw, hy⟩ := exists_run isBlank v
  cases y with
  | nil =>
    rw [List.append_nil] at hne hlast
    have hl := hw _ (List.getLast_mem hne)
    rw [hlast _ (List.getLast?_eq_getLast_of_ne_nil hne)] at hl
    cases hl
  | cons c y =>
    have hc : c ≠ '\r' ∧ c ≠ '\n' := hv c (by simp)
    rw [List.append_assoc]
    exact first_ending_of_not hw (stops_cons.1 hy) hc

/-- The value ends where only blanks follow. -/
theorem first_value {v t : Text} (hlast : EndStops isBlank v) (hv : Line.IsBody v)
    (ht : ∀ c ∈ t, isBlank c = true) (hb : EndsLine b) (ha : (a ++ v).getLast? ≠ some '\r')
    (htotal : total = size a + size (v ++ (t ++ b))) :
    first total (.sequence value .empty) (first total ending some) ⟨between a (v ++ (t ++ b)), g⟩ =
      some ⟨between (a ++ v ++ t) b, g ++ [⟨"value".toList, size a, size v⟩]⟩ := by
  have hlen : size (v ++ (t ++ b)) - size (t ++ b) = size v := by rw [size_append, Nat.add_sub_cancel]
  rw [first_sequence, value, first_group_some _ htotal, one]
  refine first_shortest (fun c hc => admits_inLine.2 (hv c hc)) ?_ ?_
  · rintro x y rfl hy
    rw [first_empty]
    refine first_ending_of_value hy ?_ (Line.isBody_append.1 hv).2
    exact (endStops_append hy).1 hlast
  · rw [first_empty, ← hlen]
    exact first_ending_of_blank ht hb ha

theorem first_assignment {gap : Text} {x : Assignment} (hgap : ∀ c ∈ gap, isBlank c = true) (hx : x.Fits)
    (hbody : Line.IsBody x.render) (hb : EndsLine b)
    (htotal : total = size a + size (gap ++ (x.render ++ b))) :
    first total assignment (first total ending some) ⟨between a (gap ++ (x.render ++ b)), g⟩ =
      some ⟨between (a ++ gap ++ x.render) b,
        g ++ [⟨"value".toList, size a + size gap + 1 + size x.after, size x.value⟩]⟩ := by
  have he : ('=' : Char).utf8Size = 1 := rfl
  have hrender : x.render ++ b = '=' :: (x.after ++ (x.value ++ (x.trail ++ b))) := by
    simp [Assignment.render]
  have hparts : Line.IsBody ('=' :: x.after ++ x.value) := (Line.isBody_append.1 hbody).1
  have hvalue : Stops isBlank (x.value ++ (x.trail ++ b)) := by
    by_cases hnil : x.value = []
    · rw [hnil, hx.trail_nil hnil]
      exact hb.stops (by decide) (by decide)
    · obtain ⟨c, v, hv⟩ := List.exists_cons_of_ne_nil hnil
      have hc := hx.head
      rw [hv] at hc ⊢
      exact stops_cons.2 (stops_cons.1 hc)
  have hlast : (a ++ gap ++ ['='] ++ x.after ++ x.value).getLast? ≠ some '\r' := by
    have := getLast?_append_isBody (a := a ++ gap) (by simp) hparts
    simpa using this
  have hend : first total (.sequence value .empty) (first total ending some)
      ⟨between (a ++ gap ++ ['='] ++ x.after) (x.value ++ (x.trail ++ b)), g⟩ =
        some ⟨between (a ++ gap ++ x.render) b,
          g ++ [⟨"value".toList, size a + size gap + 1 + size x.after, size x.value⟩]⟩ := by
    have hplace : a ++ gap ++ ['='] ++ x.after ++ x.value ++ x.trail = a ++ gap ++ x.render := by
      simp [Assignment.render]
    have hsize : size (a ++ gap ++ ['='] ++ x.after) = size a + size gap + 1 + size x.after := by
      simp only [size_append, size_cons, size_nil, he]
    rw [first_value hx.last (Line.isBody_append.1 hparts).2 hx.trail hb hlast, hplace, hsize]
    rw [htotal, hrender, hsize]
    simp only [size_append, size_cons, he]
    omega
  -- nothing is given back: all that follows the equals sign is an assignment
  rw [hrender, assignment, first_group_none, first_equals hgap, first_sequence, first_blanks hx.after hvalue]
  · exact hend
  · intro hnone
    rw [hend] at hnone
    cases hnone

/-! ### Pairs -/

theorem first_afterKey (r : Reach) :
    first total (.sequence (.repeated .zeroOrOne true assignment) .empty) k r =
      (first total assignment k r).or (k r) := by
  rw [first_sequence_empty, first_optional]

/-- Behind the key and blanks there can only be an equals sign or the end of the line. -/
theorem first_afterKey_of_not (gap : Text) {y : Text} {c : Char} (hgap : ∀ c ∈ gap, isBlank c = true)
    (hc : isBlank c = false) (he : c ≠ '=') (hne : c ≠ '\r' ∧ c ≠ '\n') :
    first total (.sequence (.repeated .zeroOrOne true assignment) .empty) (first total ending some)
      ⟨between a (gap ++ c :: y), g⟩ = none := by
  rw [first_afterKey, first_assignment_of_ne hgap (stops_cons.2 hc), first_ending_of_not hgap hc hne]
  · rfl
  · rintro _ ⟨⟩
    exact he

theorem isBody_of_isAlphanumeric {name : Text} (h : ∀ c ∈ name, isAlphanumeric c = true) :
    Line.IsBody name := by
  intro c hc
  have hd := h c hc
  exact ⟨by rintro rfl; exact absurd hd (by decide), by rintro rfl; exact absurd hd (by decide)⟩

theorem first_pair_of_stops (h : Stops isAlphanumeric b) : first total pair k ⟨between a b, g⟩ = none := by
  rw [pair, first_sequence, key, first_group, one, first_oneOrMore_of_stops]
  rw [admits_alphanumeric]
  exact h

theorem first_key {name y : Text} (hname : ∀ c ∈ name, isAlphanumeric c = true) (hne : name ≠ [])
    (hy : Stops isAlphanumeric y) (htotal : total = size a + size (name ++ y)) :
    first total pair (first total ending some) ⟨between a (name ++ y), g⟩ =
      first total (.sequence (.repeated .zeroOrOne true assignment) .empty) (first total ending some)
        ⟨between (a ++ name) y, g ++ [⟨"key".toList, size a, size name⟩]⟩ := by
  have hlen : size name = size (name ++ y) - size y := by rw [size_append, Nat.add_sub_cancel]
  rw [pair, first_sequence, key, first_group_some _ htotal, hlen]
  obtain ⟨c, name, rfl⟩ := List.exists_cons_of_ne_nil hne
  rw [one, first_longest_cons]
  · rfl
  · rw [admits_alphanumeric]; exact hname
  · rw [admits_alphanumeric]; exact hy
  · rintro - x v rfl hv
    obtain ⟨d, v, rfl⟩ := List.exists_cons_of_ne_nil hv
    have hd := hname d (by simp)
    have he : d ≠ '=' := by rintro rfl; exact absurd hd (by decide)
    have hbody := isBody_of_isAlphanumeric hname d (by simp)
    exact first_afterKey_of_not [] (fun c hc => by cases hc) (isBlank_of_isAlphanumeric hd) he hbody

theorem first_pair {p : Pair} (hp : p.Fits) (hbody : Line.IsBody p.render) (hb : EndsLine b)
    (htotal : total = size a + size (p.render ++ b)) :
    first total pair (first total ending some)
        ⟨between (a ++ p.lead) (p.name ++ (p.gap ++ (p.assignment.elim [] Assignment.render ++ b))), []⟩ =
      some ⟨between (a ++ p.render) b,
        (p.keySpan (size a) :: (p.valueSpan? (size a)).toList).map Span.group⟩ := by
  have hs : Stops isAlphanumeric (p.gap ++ (p.assignment.elim [] Assignment.render ++ b)) := by
    have htail := p.stops_tail hp (q := isAlphanumeric) (fun _ => isAlphanumeric_of_isBlank) (by decide)
    rw [← List.append_assoc]
    exact htail.append (hb.stops (by decide) (by decide))
  have hkey : total =
      size (a ++ p.lead) + size (p.name ++ (p.gap ++ (p.assignment.elim [] Assignment.render ++ b))) := by
    rw [htotal, Pair.render]
    simp only [size_append]
    omega
  have hname : Line.IsBody p.name := isBody_of_isAlphanumeric hp.name
  rw [first_key hp.name hp.name_ne hs hkey, first_afterKey]
  cases hassign : p.assignment with
  | none =>
    have hplace : a ++ p.lead ++ p.name ++ p.gap = a ++ p.render := by simp [Pair.render, hassign]
    rw [Option.elim_none, List.nil_append, first_assignment_of_ne hp.gap, first_ending_of_blank hp.gap hb,
      hplace, Pair.valueSpan?, hassign, size_append]
    · rfl
    · exact getLast?_append_isBody hp.name_ne hname
    · exact hb.stops (by decide) (by decide)
    · intro c hc
      rcases hb c hc with rfl | rfl
      · decide
      · decide
  | some x =>
    have hplace : a ++ p.lead ++ p.name ++ p.gap ++ x.render = a ++ p.render := by simp [Pair.render, hassign]
    have hx : Line.IsBody x.render := by
      rw [Pair.render, hassign] at hbody
      exact (Line.isBody_append.1 hbody).2
    rw [Option.elim_some, first_assignment hp.gap (hp.assignment x hassign) hx hb, hplace, Pair.valueSpan?,
      hassign, size_append, size_append, size_append]
    · rfl
    · rw [hkey, hassign, Option.elim_some]
      simp only [size_append]
      omega

/-! ### Lines -/

/-- A comment, a header or a pair, in this order of preference, up to the end of the line. -/
theorem first_line {lead y : Text} (hlead : ∀ c ∈ lead, isBlank c = true) (hy : Stops isBlank y)
    (hstart : AtLineStart a (lead ++ y)) :
    first total line some ⟨between a (lead ++ y), g⟩ =
      (first total comment (first total ending some) ⟨between (a ++ lead) y, g⟩).or
        ((first total header (first total ending some) ⟨between (a ++ lead) y, g⟩).or
          (first total pair (first total ending some) ⟨between (a ++ lead) y, g⟩)) := by
  rw [line, first_sequence, first_empty, first_sequence, first_look, if_pos, first_sequence,
    first_blanks hlead hy, first_sequence, first_group_none, first_choice, first_choice]
  · rintro - x v rfl hv
    obtain ⟨d, v, rfl⟩ := List.exists_cons_of_ne_nil hv
    have hd := hlead d (by simp)
    rw [first_sequence, first_group_none, first_choice, first_choice, first_comment_of_stops,
      first_header_of_ne, first_pair_of_stops]
    · rfl
    · exact stops_cons.2 (isAlphanumeric_of_isBlank hd)
    · rintro _ ⟨⟩ rfl
      exact absurd hd (by decide)
    · rintro _ ⟨⟩
      exact Marker.ofChar?_of_isBlank hd
  · rw [holds_anyLineStart_iff]
    exact hstart

/-- What begins like none of the three is not recognised. -/
theorem first_line_of_not {lead y : Text} (hlead : ∀ c ∈ lead, isBlank c = true)
    (hstart : AtLineStart a (lead ++ y))
    (h : ∀ c ∈ y.head?, isBlank c = false ∧ Marker.ofChar? c = none ∧ c ≠ '[' ∧ isAlphanumeric c = false) :
    first total line some ⟨between a (lead ++ y), g⟩ = none := by
  rw [first_line hlead (fun c hc => (h c hc).1) hstart, first_comment_of_stops fun c hc => (h c hc).2.1,
    first_header_of_ne fun c hc => (h c hc).2.2.1, first_pair_of_stops fun c hc => (h c hc).2.2.2]
  rfl

end Parts

end LinePattern

end TunnelConf
