import TunnelConf.Proofs.Merge.Edit
import TunnelConf.Proofs.Merge.KeyPattern

/-!
# What the pattern of a key finds

The pattern of a key takes the lines of the key, and comments with such a line in them (`readsLines_line`). Main
statement: `mergeInsert_eq_overwrite`, merging writes over the group in the first match that is no comment, or adds a
line if there is none.
-/

namespace TunnelConf

open Text Pattern Spot

/-! ### Groups of lines -/

namespace KeyLine

/-- What is written over. -/
def old : KeyLine → Text
  | .bare _ _ gap => gap
  | .assigned _ _ _ value | .loose _ _ _ value => value

/-- What stands between the name and what is written over. -/
def mid : KeyLine → Text
  | .bare .. => []
  | .assigned _ _ gap _ => gap ++ ['=']
  | .loose _ _ gap _ => gap

def groupName : KeyLine → Text
  | .bare .. => "bare".toList
  | .assigned .. => "assigned".toList
  | .loose .. => "loose".toList

/-- The group of what is written over in a line that starts at `n`. -/
def group (n : Nat) (l : KeyLine) : Group := ⟨l.groupName, n + size (l.lead ++ l.name ++ l.mid), size l.old⟩

theorem render_eq (l : KeyLine) : l.render = l.lead ++ l.name ++ l.mid ++ l.old := by
  cases l <;> simp [render, lead, name, gap, rest, mid, old]

/-- The form of a line with what stands behind its name. -/
def ofTail? (lead name tail : Text) : Option KeyLine :=
  let gap := tail.takeWhile isBlank
  match tail.dropWhile isBlank with
  | [] => some (.bare lead name gap)
  | c :: rest =>
    if c = '=' then some (.assigned lead name gap rest)
    else if gap.isEmpty then none
    else some (.loose lead name gap (c :: rest))

section Tails
variable {lead name gap rest : Text} (hgap : ∀ c ∈ gap, isBlank c = true)
include hgap

theorem ofTail?_bare : ofTail? lead name gap = some (.bare lead name gap) := by
  rw [ofTail?, List.takeWhile_eq_self_iff.2 hgap, List.dropWhile_eq_nil_iff.2 hgap]

theorem ofTail?_assigned : ofTail? lead name (gap ++ '=' :: rest) = some (.assigned lead name gap rest) := by
  have hs : Stops isBlank ('=' :: rest) := stops_cons.2 (by decide)
  rw [ofTail?, takeWhile_append_of_stops hgap hs, dropWhile_append_of_stops hgap hs]
  rfl

theorem ofTail?_cons {c : Char} (hc : isBlank c = false) (he : c ≠ '=') :
    ofTail? lead name (gap ++ c :: rest) = if gap.isEmpty then none else some (.loose lead name gap (c :: rest)) := by
  have hs : Stops isBlank (c :: rest) := stops_cons.2 hc
  rw [ofTail?, takeWhile_append_of_stops hgap hs, dropWhile_append_of_stops hgap hs]
  exact if_neg he

end Tails

def ofName? (key lead t : Text) : Option KeyLine :=
  (KeyName.divide? key t).bind fun p => ofTail? lead p.1 p.2

theorem ofBody?_eq (key body : Text) :
    ofBody? key body = ofName? key (body.takeWhile isBlank) (body.dropWhile isBlank) := rfl

/-- The first place in a text behind which there is a line of the key without blanks in front of it, with what stands
before that place. -/
def within? (key : Text) : Text → Option (Text × KeyLine)
  | [] => (ofName? key [] []).map ([], ·)
  | c :: t => ((ofName? key [] (c :: t)).map ([], ·)).or ((within? key t).map fun p => (c :: p.1, p.2))

end KeyLine

namespace KeyPattern

open KeyLine

variable {α : Type} {total : Nat} {k : Reach → Option α} {a b : Text} {g : List Group} {key : Text}

/-! ### Names -/

theorem admits_letter_iff {c d : Char} (hc : isAlphanumeric c = true) :
    (only c).admits true d = true ↔ KeyName.fold c = KeyName.fold d := by
  rw [← KeyName.mem_caseVariants_iff hc]
  simp [only, CharClass.admits, CharClass.upToCase]

theorem first_letters (hkey : ∀ c ∈ key, isAlphanumeric c = true) :
    first total (letters key) k ⟨between a b, g⟩ =
      (KeyName.divide? key b).bind fun p => k ⟨between (a ++ p.1) p.2, g⟩ := by
  induction key generalizing a b with
  | nil =>
    rw [letters, first_empty, KeyName.divide?, Option.bind_some, List.append_nil]
  | cons c key ih =>
    obtain ⟨hc, hkey⟩ := List.forall_mem_cons.1 hkey
    cases b with
    | nil =>
      rw [letters, first_sequence, letter, first_oneOf_of_stops stops_nil]
      rfl
    | cons d b =>
      rw [letters, first_sequence, letter, KeyName.divide?]
      by_cases hd : KeyName.fold c = KeyName.fold d
      · rw [first_oneOf_cons ((admits_letter_iff hc).2 hd), ih hkey, if_pos hd, Option.bind_map]
        simp only [List.append_assoc, List.singleton_append]
        rfl
      · have hstops : (only c).admits true d = false := by
          rw [Bool.eq_false_iff, ne_eq, admits_letter_iff hc]
          exact hd
        rw [first_oneOf_of_stops (stops_cons.2 hstops), if_neg hd]
        rfl

theorem first_name (hkey : ∀ c ∈ key, isAlphanumeric c = true) :
    first total (name key) k ⟨between a b, g⟩ =
      (KeyName.divide? key b).bind fun p => k ⟨between (a ++ p.1) p.2, g⟩ := by
  have hname : first total (name key) k ⟨between a b, g⟩ = first total (letters key) k ⟨between a b, g⟩ := by
    rcases key with _ | ⟨c, _ | ⟨d, key⟩⟩
    · rfl
    · rw [name, letters, letters, first_sequence_empty]
    · rfl
  rw [hname, first_letters hkey]

/-- A name does not go on behind the end of a line. -/
theorem divide?_append (hkey : ∀ c ∈ key, isAlphanumeric c = true) (hb : EndsLine b) (t : Text) :
    KeyName.divide? key (t ++ b) = (KeyName.divide? key t).map fun p => (p.1, p.2 ++ b) := by
  induction key generalizing t with
  | nil => rfl
  | cons c key ih =>
    obtain ⟨hc, hkey⟩ := List.forall_mem_cons.1 hkey
    cases t with
    | nil =>
      cases b with
      | nil => rfl
      | cons d b =>
        have hne : KeyName.fold c ≠ KeyName.fold d := by
          intro h
          rcases hb d rfl with rfl | rfl
          · rcases KeyName.isAlphanumeric_or_of_fold hc h.symm with h | h | h <;> exact absurd h (by decide)
          · rcases KeyName.isAlphanumeric_or_of_fold hc h.symm with h | h | h <;> exact absurd h (by decide)
        have hother : KeyName.divide? (c :: key) (d :: b) = none := by rw [KeyName.divide?, if_neg hne]
        rw [List.nil_append, hother]
        rfl
    | cons d t =>
      rw [List.cons_append, KeyName.divide?, KeyName.divide?]
      split
      · rw [ih hkey, Option.map_map, Option.map_map]
        rfl
      · rfl

/-! ### Behind the name -/

theorem first_lineEnd : first total lineEnd some ⟨between a b, g⟩ =
    if Look.holds (between a b) .anyLineEnd then some ⟨between a b, g⟩ else none := by
  rw [lineEnd, first_sequence, first_look]
  split
  · rw [first_empty]
  · rfl

theorem first_lineEnd_of_endsLine (hb : EndsLine b) (ha : a.getLast? ≠ some '\r') :
    first total lineEnd some ⟨between a b, g⟩ = some ⟨between a b, g⟩ := by
  rw [first_lineEnd, if_pos ((holds_anyLineEnd_iff a b).2 (hb.atLineEnd ha))]

theorem first_lineEnd_cons {c : Char} (hc : c ≠ '\r' ∧ c ≠ '\n') :
    first total lineEnd some ⟨between a (c :: b), g⟩ = none := by
  rw [first_lineEnd, if_neg]
  rw [holds_anyLineEnd_iff]
  exact not_atLineEnd_cons hc

theorem first_bare {gap y : Text} (hgap : ∀ c ∈ gap, isBlank c = true) (hy : Stops isBlank y)
    (htotal : total = size a + size (gap ++ y)) : first total bare some ⟨between a (gap ++ y), g⟩ =
      first total lineEnd some ⟨between (a ++ gap) y, g ++ [⟨"bare".toList, size a, size gap⟩]⟩ := by
  have hlen : size (gap ++ y) - size y = size gap := by rw [size_append, Nat.add_sub_cancel]
  rw [bare, first_sequence, first_group_some _ htotal, LinePattern.first_blanks hgap hy]
  · rw [← hlen]
    rfl
  · rintro - x v rfl hv
    obtain ⟨d, v, rfl⟩ := List.exists_cons_of_ne_nil hv
    exact first_lineEnd_cons (LinePattern.isBody_of_isBlank hgap d (by simp))

/-- A value takes the rest of the line. -/
theorem first_value (n : Text) {v : Text} (hv : Line.IsBody v) (hb : EndsLine b) (ha : (a ++ v).getLast? ≠ some '\r')
    (htotal : total = size a + size (v ++ b)) :
    first total (.sequence (.group (some n) value) lineEnd) some ⟨between a (v ++ b), g⟩ =
      some ⟨between (a ++ v) b, g ++ [⟨n, size a, size v⟩]⟩ := by
  have hlen : size (v ++ b) - size b = size v := by rw [size_append, Nat.add_sub_cancel]
  rw [first_sequence, first_group_some _ htotal, value, one]
  refine first_shortest (fun c hc => LinePattern.admits_inLine.2 (hv c hc)) ?_ ?_
  · rintro x y rfl hy
    obtain ⟨d, y, rfl⟩ := List.exists_cons_of_ne_nil hy
    exact first_lineEnd_cons (hv d (by simp))
  · rw [← hlen]
    exact first_lineEnd_of_endsLine hb ha

theorem first_assigned {gap v : Text} (hgap : ∀ c ∈ gap, isBlank c = true) (hv : Line.IsBody v) (hb : EndsLine b)
    (ha : (a ++ (gap ++ ['=']) ++ v).getLast? ≠ some '\r')
    (htotal : total = size (a ++ (gap ++ ['='])) + size (v ++ b)) :
    first total assigned some ⟨between a (gap ++ '=' :: (v ++ b)), g⟩ =
      some ⟨between (a ++ (gap ++ ['=']) ++ v) b, g ++ [⟨"assigned".toList, size (a ++ (gap ++ ['='])), size v⟩]⟩ := by
  rw [assigned, LinePattern.first_equals hgap, List.append_assoc a]
  exact first_value _ hv hb ha htotal

theorem first_loose {gap v : Text} (hgap : ∀ c ∈ gap, isBlank c = true) (hne : gap ≠ []) (hv : Line.IsBody v)
    (hs : Stops isBlank (v ++ b)) (hb : EndsLine b) (ha : (a ++ gap ++ v).getLast? ≠ some '\r')
    (htotal : total = size (a ++ gap) + size (v ++ b)) :
    first total loose some ⟨between a (gap ++ (v ++ b)), g⟩ =
      some ⟨between (a ++ gap ++ v) b, g ++ [⟨"loose".toList, size (a ++ gap), size v⟩]⟩ := by
  have hvalue := first_value (g := g) "loose".toList hv hb ha htotal
  obtain ⟨d, gap, rfl⟩ := List.exists_cons_of_ne_nil hne
  rw [loose, first_sequence, one, first_longest_cons]
  · exact hvalue
  · rw [LinePattern.admits_blank]; exact hgap
  · rw [LinePattern.admits_blank]; exact hs
  · intro hnone
    rw [hvalue] at hnone
    cases hnone

theorem first_loose_of_stops {y : Text} (hy : Stops isBlank y) : first total loose k ⟨between a y, g⟩ = none := by
  rw [loose, first_sequence, one, first_oneOrMore_of_stops]
  rw [LinePattern.admits_blank]
  exact hy

/-- Behind a name the pattern reads what is read behind it in a line of the key. -/
theorem first_behind {n : Nat} {lead name tail : Text} (htail : Line.IsBody tail) (hb : EndsLine b)
    (ha : a.getLast? ≠ some '\r') (hn : size a = n + size (lead ++ name)) (htotal : total = size a + size (tail ++ b)) :
    first total behind some ⟨between a (tail ++ b), g⟩ =
      (ofTail? lead name tail).map fun l => ⟨between (a ++ tail) b, g ++ [l.group n]⟩ := by
  obtain ⟨gap, y, rfl, hgap, hy⟩ := exists_run isBlank tail
  have hyb : Stops isBlank (y ++ b) := hy.append (hb.stops (by decide) (by decide))
  obtain ⟨hgapbody, hybody⟩ := Line.isBody_append.1 htail
  have hlast := getLast?_append_ne ha htail
  have hmid : ∀ mid, size (a ++ mid) = n + size (lead ++ name ++ mid) := by
    intro mid
    rw [size_append, hn, size_append (lead ++ name), Nat.add_assoc]
  rw [List.append_assoc] at htotal ⊢
  rw [behind, first_group_none, first_choice, first_choice, first_bare hgap hyb htotal]
  cases y with
  | nil =>
    rw [List.append_nil] at hlast
    have hgroup : (⟨"bare".toList, size a, size gap⟩ : Group) = (KeyLine.bare lead name gap).group n := by
      rw [← List.append_nil a, hmid]
      rfl
    rw [List.append_nil, ofTail?_bare hgap, hgroup]
    exact congrArg (Option.or · _) (first_lineEnd_of_endsLine hb hlast)
  | cons c v =>
    have hc : c ≠ '\r' ∧ c ≠ '\n' := hybody c List.mem_cons_self
    have hblank : isBlank c = false := stops_cons.1 hy
    rw [List.cons_append, first_lineEnd_cons hc, Option.none_or]
    by_cases he : c = '='
    · subst he
      have hplace : a ++ (gap ++ '=' :: v) = a ++ (gap ++ ['=']) ++ v := by simp
      have hsplit : gap ++ ('=' :: v ++ b) = (gap ++ ['=']) ++ (v ++ b) := by simp
      rw [hplace] at hlast ⊢
      rw [hsplit] at htotal
      rw [first_assigned hgap (Line.isBody_cons.1 hybody).2 hb hlast (total_append htotal), Option.some_or,
        ofTail?_assigned hgap, hmid]
      rfl
    · have hne : ∀ d ∈ (c :: (v ++ b)).head?, d ≠ '=' := by rintro _ ⟨⟩; exact he
      rw [assigned, LinePattern.first_equals_of_ne hgap (stops_cons.2 hblank) hne, Option.none_or,
        ofTail?_cons hgap hblank he]
      by_cases hnil : gap = []
      · subst hnil
        exact first_loose_of_stops hyb
      · rw [← List.append_assoc] at hlast ⊢
        rw [← List.cons_append, first_loose hgap hnil hybody hyb hb hlast (total_append htotal),
          if_neg (by simpa using hnil), hmid]
        rfl

/-! ### Lines and comments -/

variable {t : Text} (key : KeyName)

theorem first_named (n : Nat) (lead : Text) (ht : Line.IsBody t) (hb : EndsLine b) (hn : size a = n + size lead)
    (htotal : total = size a + size (t ++ b)) :
    first total (named key.text) some ⟨between a (t ++ b), g⟩ =
      (ofName? key.text lead t).map fun l => ⟨between (a ++ t) b, g ++ [l.group n]⟩ := by
  have hkey := key.isAlphanumeric_of_mem
  rw [named, first_sequence, first_group_none, first_name hkey, divide?_append hkey hb, ofName?]
  cases hd : KeyName.divide? key.text t with
  | none => rfl
  | some p =>
    obtain ⟨nm, tail⟩ := p
    obtain ⟨rfl, hs⟩ := KeyName.divide?_eq_some_iff.1 hd
    obtain ⟨hname, htail⟩ := Line.isBody_append.1 ht
    have hlast : (a ++ nm).getLast? ≠ some '\r' := getLast?_append_isBody hs.ne_nil hname
    have hsize : size (a ++ nm) = n + size (lead ++ nm) := by rw [size_append, hn, size_append, Nat.add_assoc]
    rw [List.append_assoc] at htotal
    rw [Option.map_some, Option.bind_some, Option.bind_some, first_sequence_empty,
      first_behind htail hb hlast hsize (total_append htotal), List.append_assoc]

/-- What starts like no name of the key. -/
theorem first_named_of_blank {c : Char} (hc : isBlank c = true) :
    first total (named key.text) k ⟨between a (c :: b), g⟩ = none := by
  rw [named, first_sequence, first_group_none, first_name key.isAlphanumeric_of_mem]
  cases hd : KeyName.divide? key.text (c :: b) with
  | none => rfl
  | some p =>
    obtain ⟨heq, hs⟩ := KeyName.divide?_eq_some_iff.1 hd
    have hstops := stops_name (t := p.2) hs
    rw [← heq, stops_cons, hc] at hstops
    cases hstops

/-- By induction on the comment: a place in it counts only if none before it does. -/
theorem first_within (nm : Text) (start len : Nat) (ht : Line.IsBody t) (hb : EndsLine b)
    (htotal : total = size a + size (t ++ b)) (hlen : size (t ++ b) ≤ len) :
    first total (.repeated .zeroOrMore false (one LinePattern.inLine))
        (fun q => first total (named key.text) some ⟨q.spot, q.groups ++ [⟨nm, start, len - q.spot.left⟩]⟩)
        ⟨between a (t ++ b), g⟩ =
      (within? key.text t).map fun p => ⟨between (a ++ t) b,
        g ++ [⟨nm, start, len - size (t ++ b) + size p.1⟩, p.2.group (size a + size p.1)]⟩ := by
  induction t generalizing a with
  | nil =>
    rw [one, List.nil_append, first_lazy_of_stops (LinePattern.stops_inLine hb), within?, Option.map_map]
    refine (first_named key (size a) [] ht hb rfl htotal).trans ?_
    simp [Function.comp_def, between]
  | cons c t ih =>
    obtain ⟨hc, hbody⟩ := Line.isBody_cons.1 ht
    have hplace : a ++ [c] ++ t = a ++ c :: t := by simp
    have hrest : total = size (a ++ [c]) + size (t ++ b) := total_append htotal
    have hle : size (t ++ b) ≤ len := by
      rw [List.cons_append, size_cons] at hlen
      omega
    have hnow := first_named (g := g ++ [⟨nm, start, len - size (c :: t ++ b)⟩]) key (size a) [] ht hb rfl htotal
    rw [one, List.cons_append, first_lazy_cons (LinePattern.admits_inLine.2 hc), ← one, ih hbody hrest hle, within?,
      Option.map_or, Option.map_map, Option.map_map, hplace]
    congr 1
    · refine hnow.trans ?_
      simp [Function.comp_def]
    · refine Option.map_congr fun p _ => ?_
      have hcount : len - size (t ++ b) + size p.1 = len - size (c :: (t ++ b)) + size (c :: p.1) := by
        rw [List.cons_append, size_cons] at hlen
        simp only [size_cons]
        omega
      have hstart : size (a ++ [c]) + size p.1 = size a + size (c :: p.1) := by
        simp only [size_append, size_cons, size_nil]
        omega
      rw [hcount, hstart]
      rfl

theorem first_comment (m : Marker) (ht : Line.IsBody t) (hb : EndsLine b)
    (htotal : total = size a + size (m.char :: t ++ b)) :
    first total comment (first total (named key.text) some) ⟨between a (m.char :: t ++ b), g⟩ =
      (within? key.text t).map fun p => ⟨between (a ++ m.char :: t) b,
        g ++ [⟨"comment".toList, size a, size (m.char :: p.1)⟩, p.2.group (size a + size (m.char :: p.1))]⟩ := by
  have hm : LinePattern.marker.admits false m.char = true := by
    rw [LinePattern.admits_marker, Marker.ofChar?_char]
    rfl
  have hplace : total = size (a ++ [m.char]) + size (t ++ b) := total_append htotal
  have hle : size (t ++ b) ≤ size (m.char :: t ++ b) := by
    rw [List.cons_append, size_cons]
    omega
  rw [comment, first_group_some _ htotal, first_sequence, one, List.cons_append, first_oneOf_cons hm,
    first_sequence_empty, ← List.cons_append]
  refine (first_within key "comment".toList (size a) _ ht hb hplace hle).trans (Option.map_congr fun p _ => ?_)
  have hcount : size (m.char :: t ++ b) - size (t ++ b) + size p.1 = size (m.char :: p.1) := by
    simp only [List.cons_append, size_cons]
    omega
  have hstart : size (a ++ [m.char]) + size p.1 = size a + size (m.char :: p.1) := by
    simp only [size_append, size_cons, size_nil]
    omega
  rw [hcount, hstart, List.append_assoc]
  rfl

theorem first_comment_of_stops (h : ∀ c ∈ b.head?, Marker.ofChar? c = none) :
    first total comment k ⟨between a b, g⟩ = none := LinePattern.first_marked_of_stops _ h

/-- The groups of a comment with a line of the key in it, for a text that starts at `n`. -/
def commentGroups? (key : Text) (n : Nat) : Text → Option (List Group)
  | [] => none
  | c :: t =>
    if (Marker.ofChar? c).isSome then
      (within? key t).map fun p => [⟨"comment".toList, n, size (c :: p.1)⟩, p.2.group (n + size (c :: p.1))]
    else none

/-- The groups of a line that starts at `n`. -/
def groups? (key : Text) (n : Nat) (body : Text) : Option (List Group) :=
  (commentGroups? key (n + size (body.takeWhile isBlank)) (body.dropWhile isBlank)).or
    ((ofBody? key body).map fun l => [l.group n])

theorem first_body (n : Nat) (lead : Text) (ht : Line.IsBody t) (hb : EndsLine b) (hn : size a = n + size lead)
    (htotal : total = size a + size (t ++ b)) :
    first total (body key.text) some ⟨between a (t ++ b), []⟩ =
      ((commentGroups? key.text (size a) t).or ((ofName? key.text lead t).map fun l => [l.group n])).map fun g =>
        ⟨between (a ++ t) b, g⟩ := by
  rw [body, first_sequence, first_optional, first_named key n lead ht hb hn htotal, Option.map_or, Option.map_map]
  congr 1
  cases t with
  | nil =>
    refine first_comment_of_stops fun c hc => ?_
    rcases hb c hc with rfl | rfl
    · decide
    · decide
  | cons c t =>
    rw [commentGroups?]
    cases hm : Marker.ofChar? c with
    | none =>
      refine first_comment_of_stops ?_
      rintro _ ⟨⟩
      exact hm
    | some m =>
      obtain rfl := Marker.char_of_ofChar? hm
      rw [first_comment key m (Line.isBody_cons.1 ht).2 hb htotal]
      simp [Function.comp_def]

/-- The pattern takes the lines of the key, and the comments with such a line in them. -/
theorem readsLines_line (total : Nat) : ReadsLines total (line key.text) (groups? key.text) where
  start := by
    intro r hr
    rw [line, reaches, reaches, List.flatMap_cons, reaches_look_sequence hr]
    rfl
  nil := by
    intro n
    rw [groups?, ofBody?_nil]
    rfl
  line := by
    intro a body' b htotal hstart hbody hb
    rw [head?_reaches]
    obtain ⟨lead, t, rfl, hlead, ht⟩ := exists_run isBlank body'
    have hs : Stops isBlank (t ++ b) := ht.append (hb.stops (by decide) (by decide))
    rw [List.append_assoc] at hstart htotal ⊢
    rw [line, first_sequence, first_empty, first_sequence, first_look, if_pos ((holds_anyLineStart_iff _ _).2 hstart),
      first_sequence, LinePattern.first_blanks hlead hs,
      first_body key (size a) lead (Line.isBody_append.1 hbody).2 hb (size_append a lead) (total_append htotal),
      groups?, ofBody?_eq, takeWhile_append_of_stops hlead ht, dropWhile_append_of_stops hlead ht, size_append,
      List.append_assoc]
    rintro - x v rfl hv
    obtain ⟨d, v, rfl⟩ := List.exists_cons_of_ne_nil hv
    have hd := hlead d (by simp)
    have hm : ∀ c ∈ (d :: v ++ (t ++ b)).head?, Marker.ofChar? c = none := by
      rintro _ ⟨⟩
      exact Marker.ofChar?_of_isBlank hd
    rw [body, first_sequence, first_optional, first_comment_of_stops hm, List.cons_append, first_named_of_blank key hd]
    rfl

/-! ### Matches outside comments -/

/-- Whether a match is no comment. -/
def isLive (gs : List Group) : Bool := gs.all fun g => g.name != "comment".toList

theorem isLive_group (n : Nat) (l : KeyLine) : isLive [l.group n] = true := by cases l <;> rfl

theorem ofBody?_of_marker {body : Text} {c : Char} (hbody : body.dropWhile isBlank = c :: t)
    (hc : (Marker.ofChar? c).isSome = true) : ofBody? key.text body = none := by
  rw [ofBody?_eq, ofName?, hbody, Option.bind_eq_none_iff]
  intro p hp
  obtain ⟨heq, hs⟩ := KeyName.divide?_eq_some_iff.1 hp
  obtain ⟨d, u, hd, -, hm, -⟩ := exists_cons_of_spells hs
  rw [hd] at heq
  rw [(List.cons.inj heq).1, hm] at hc
  cases hc

theorem filter_groups? (n : Nat) (body : Text) :
    (groups? key.text n body).filter isLive = (ofBody? key.text body).map fun l => [l.group n] := by
  rw [groups?]
  cases hgroups : commentGroups? key.text (n + size (body.takeWhile isBlank)) (body.dropWhile isBlank) with
  | none =>
    rw [Option.none_or]
    cases ofBody? key.text body with
    | none => rfl
    | some l => rw [Option.map_some, Option.filter_some, isLive_group, if_pos rfl]
  | some gs =>
    cases hrest : body.dropWhile isBlank with
    | nil => rw [hrest] at hgroups; cases hgroups
    | cons c t =>
      rw [hrest, commentGroups?] at hgroups
      obtain ⟨hc, hgroups⟩ := Option.ite_none_right_eq_some.1 hgroups
      obtain ⟨p, -, rfl⟩ := Option.map_eq_some_iff.1 hgroups
      rw [ofBody?_of_marker key hrest hc]
      rfl

/-- The line that merging takes is the one in the first match that is no comment. -/
theorem find?_eq_captured (t : Text) : (KeyLine.find? key.text t).map (fun q => [q.2.group q.1]) =
    ((line key.text).groupsIn t).find? isLive := by
  rw [(readsLines_line key (size t)).groupsIn_eq, KeyLine.find?, List.map_findSome?, ← List.head?_filter,
    List.filter_filterMap, List.head?_filterMap]
  congr 1
  funext q
  rw [filter_groups?, Function.comp_apply, Option.map_map]
  rfl

/-- The splice that adds a value where a text has a group. -/
def overwrite (t value : Text) (g : Group) : Splice :=
  let old := trim ((slice? g.start g.len t).getD [])
  .replace g.start (g.start + g.len)
    (if g.name = "assigned".toList then ' ' :: if old.isEmpty then value else join old value
    else if g.name = "loose".toList then "= ".toList ++ join old value
    else " = ".toList ++ value)

theorem slice?_group (l : KeyLine) (before after : Text) :
    slice? (l.group (size before)).start (l.group (size before)).len (before ++ l.render ++ after) = some l.old := by
  refine slice?_eq_some_iff.2 ⟨before ++ (l.lead ++ l.name ++ l.mid), after, ?_, size_append _ _, rfl⟩
  rw [render_eq]
  simp only [List.append_assoc]

theorem add_eq_overwrite (l : KeyLine) (value before after : Text) :
    l.add value (size before) = overwrite (before ++ l.render ++ after) value (l.group (size before)) := by
  have hone : ('=' : Char).utf8Size = 1 := rfl
  rw [overwrite, slice?_group]
  cases l with
  | bare lead name gap =>
    have hstart : ((KeyLine.bare lead name gap).group (size before)).start =
        size before + size lead + size name := by
      simp only [KeyLine.group, KeyLine.lead, KeyLine.name, mid, size_append, size_nil]
      omega
    rw [hstart]
    rfl
  | assigned lead name gap value' =>
    have hstart : ((KeyLine.assigned lead name gap value').group (size before)).start =
        size before + size lead + size name + size gap + 1 := by
      simp only [KeyLine.group, KeyLine.lead, KeyLine.name, mid, size_append, size_cons, size_nil, hone]
      omega
    rw [hstart]
    rfl
  | loose lead name gap value' =>
    have hstart : ((KeyLine.loose lead name gap value').group (size before)).start =
        size before + size lead + size name + size gap := by
      simp only [KeyLine.group, KeyLine.lead, KeyLine.name, mid, size_append]
      omega
    rw [hstart]
    rfl

/-- Merging writes over the group in the first match of the key's pattern that is no comment. Without one it adds a
line. -/
theorem mergeInsert_eq_overwrite (t value : Text) : ∃ p, Pattern.ofText? (keyGrammar key.text) = some p ∧
    mergeInsert t key value = (((p.groupsIn t).find? isLive).bind List.head?).elim
      (.insert (size t) ('\n' :: key.text ++ " = ".toList ++ value)) (overwrite t value) := by
  refine ⟨line key.text, ofText?_keyGrammar key, ?_⟩
  rw [← find?_eq_captured, mergeInsert]
  cases hfind : KeyLine.find? key.text t with
  | none => rfl
  | some q =>
    obtain ⟨n, l⟩ := q
    obtain ⟨before, e, after, hl, rfl⟩ := exists_firstLine hfind
    show l.add value (size (Line.textOf before)) = overwrite t value (l.group (size (Line.textOf before)))
    conv_rhs => rw [hl.text_eq]
    exact add_eq_overwrite l value _ _

end KeyPattern

end TunnelConf
