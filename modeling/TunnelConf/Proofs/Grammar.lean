import TunnelConf.Grammar
import TunnelConf.Proofs.Text.Parts

/-!
# Which lines have a form

`LineForm.Fits` says of the parts of a form what they are made of. Main statement:
`LineForm.ofBody?_eq_some_iff`, a line is read as a form exactly if the parts of the form fit and
make up the line. So no line has two forms, and forms are found by naming their parts.
-/

namespace TunnelConf

open Text

/-! ### Characters of the grammar -/

theorem Text.isBlank_of_isAlphanumeric {c : Char} (h : isAlphanumeric c = true) :
    isBlank c = false := by
  rw [Bool.eq_false_iff]
  intro hb
  simp only [isBlank, Bool.or_eq_true, beq_iff_eq] at hb
  rcases hb with rfl | rfl <;> exact absurd h (by decide)

theorem Text.isAlphanumeric_of_isBlank {c : Char} (h : isBlank c = true) :
    isAlphanumeric c = false := by
  rw [Bool.eq_false_iff]
  intro ha
  rw [isBlank_of_isAlphanumeric ha] at h; cases h

/-- A property of ASCII characters holds if it holds of each of the 128. -/
theorem Text.forall_ascii {P : Char → Prop} (h : ∀ n : Nat, n < 128 → P (Char.ofNat n)) {c : Char}
    (hc : c.toNat < 128) : P c :=
  Char.ofNat_toNat c ▸ h c.toNat hc

theorem Text.toNat_lt_of_isAlphanumeric {c : Char} (h : isAlphanumeric c = true) : c.toNat < 128 := by
  simp only [isAlphanumeric, Bool.or_eq_true, Bool.and_eq_true, decide_eq_true_eq, Char.le_def,
    UInt32.le_iff_toNat_le] at h
  have h9 : ('9' : Char).val.toNat = 57 := rfl
  have hZ : ('Z' : Char).val.toNat = 90 := rfl
  have hz : ('z' : Char).val.toNat = 122 := rfl
  show c.val.toNat < 128
  omega

theorem Text.isSpace_of_isAlphanumeric {c : Char} (h : isAlphanumeric c = true) : isSpace c = false :=
  forall_ascii (P := fun c => isAlphanumeric c = true → isSpace c = false) (by decide)
    (toNat_lt_of_isAlphanumeric h) h

theorem Marker.ofChar?_char (m : Marker) : ofChar? m.char = some m := by
  cases m <;> decide

theorem Marker.isBlank_char (m : Marker) : isBlank m.char = false := by
  cases m <;> decide

theorem Marker.ofChar?_of_isAlphanumeric {c : Char} (h : isAlphanumeric c = true) :
    ofChar? c = none := by
  have h₁ : c ≠ '#' := by rintro rfl; exact absurd h (by decide)
  have h₂ : c ≠ ';' := by rintro rfl; exact absurd h (by decide)
  simp [ofChar?, h₁, h₂]

theorem Marker.ofChar?_of_isBlank {c : Char} (h : isBlank c = true) : ofChar? c = none := by
  simp only [isBlank, Bool.or_eq_true, beq_iff_eq] at h
  rcases h with rfl | rfl
  · rfl
  · rfl

theorem Text.isWord_bracket : isWord ']' = false := by decide +kernel

/-! ### Assignments -/

/-- The value has no blanks at its ends, and blanks only are around it. -/
structure Assignment.Fits (a : Assignment) : Prop where
  after : ∀ c ∈ a.after, isBlank c = true
  head : Stops isBlank a.value
  last : EndStops isBlank a.value
  trail : ∀ c ∈ a.trail, isBlank c = true
  /-- An empty value sits at the end of the line. -/
  trail_nil : a.value = [] → a.trail = []

theorem Assignment.fits_ofRest (rest : Text) : (ofRest rest).Fits := by
  have hd := stops_dropWhile isBlank rest
  obtain ⟨b, hb, hblank, hend⟩ := exists_trimEndWhile isBlank (rest.dropWhile isBlank)
  have htrail : (ofRest rest).trail = b := (congrArg (List.drop _) hb).trans List.drop_left
  refine ⟨fun _ hc => List.mem_takeWhile_imp hc, stops_trimEndWhile hd, hend, ?_, ?_⟩
  · rw [htrail]; exact hblank
  · intro hv
    rw [htrail]
    have hv : trimEndWhile isBlank (rest.dropWhile isBlank) = [] := hv
    rw [hb, hv, List.nil_append] at hd
    cases b with
    | nil => rfl
    | cons c b => simp [hblank] at hd

theorem Assignment.ofRest_of_fits {a : Assignment} (h : a.Fits) :
    ofRest (a.after ++ (a.value ++ a.trail)) = a := by
  have hs : Stops isBlank (a.value ++ a.trail) := by
    cases hv : a.value with
    | nil => simp [h.trail_nil hv]
    | cons c v => have := h.head; rw [hv] at this; simpa using this
  have ht : trimEndWhile isBlank (a.value ++ a.trail) = a.value := by
    rw [trimEndWhile_append_of_all h.trail, trimEndWhile_eq_self_iff]
    exact h.last
  simp [ofRest, takeWhile_append_of_stops h.after hs, dropWhile_append_of_stops h.after hs, ht]

/-! ### Pairs -/

/-- The name is one or more ASCII letters and digits, with blanks only around it. -/
structure Pair.Fits (p : Pair) : Prop where
  lead : ∀ c ∈ p.lead, isBlank c = true
  name : ∀ c ∈ p.name, isAlphanumeric c = true
  name_ne : p.name ≠ []
  gap : ∀ c ∈ p.gap, isBlank c = true
  assignment : ∀ a ∈ p.assignment, a.Fits

theorem Pair.fits_of_ofRest? {lead rest : Text} {p : Pair} (hlead : ∀ c ∈ lead, isBlank c = true)
    (h : ofRest? lead rest = some p) : p.Fits := by
  have hname : ∀ c ∈ rest.takeWhile isAlphanumeric, isAlphanumeric c = true :=
    fun _ hc => List.mem_takeWhile_imp hc
  have hgap : ∀ c ∈ (rest.dropWhile isAlphanumeric).takeWhile isBlank, isBlank c = true :=
    fun _ hc => List.mem_takeWhile_imp hc
  simp only [ofRest?] at h
  split at h
  · cases h
  · next hne =>
    have hne : rest.takeWhile isAlphanumeric ≠ [] := by simpa using hne
    split at h
    · cases h; exact ⟨hlead, hname, hne, hgap, by simp⟩
    · split at h
      · cases h
        exact ⟨hlead, hname, hne, hgap, by simpa using Assignment.fits_ofRest _⟩
      · cases h

theorem Pair.stops_tail {p : Pair} (h : p.Fits) {q : Char → Bool} (hq : ∀ c, isBlank c = true → q c = false)
    (he : q '=' = false) : Stops q (p.gap ++ p.assignment.elim [] Assignment.render) := by
  cases hg : p.gap with
  | nil => cases p.assignment <;> simp [Assignment.render, he]
  | cons c g => simpa using hq c (h.gap c (by simp [hg]))

theorem Pair.ofRest?_of_fits {p : Pair} (h : p.Fits) :
    ofRest? p.lead (p.name ++ (p.gap ++ p.assignment.elim [] Assignment.render)) = some p := by
  have hs := p.stops_tail h (q := isAlphanumeric) (fun _ => isAlphanumeric_of_isBlank) (by decide)
  have hg : Stops isBlank (p.assignment.elim [] Assignment.render) := by
    cases p.assignment <;> simp [Assignment.render]
    decide
  have hne : p.name.isEmpty = false := by simpa using h.name_ne
  simp only [ofRest?, takeWhile_append_of_stops h.name hs, dropWhile_append_of_stops h.name hs,
    takeWhile_append_of_stops h.gap hg, dropWhile_append_of_stops h.gap hg, hne]
  cases ha : p.assignment with
  | none => cases p; simp_all
  | some a =>
    have hr := Assignment.ofRest_of_fits (h.assignment a (by simp [ha]))
    cases p; simp_all [Assignment.render]

theorem Pair.ofRest?_eq_none (lead : Text) {name gap t : Text} {c : Char}
    (hname : ∀ c ∈ name, isAlphanumeric c = true) (hgap : ∀ c ∈ gap, isBlank c = true)
    (hs : Stops isAlphanumeric (gap ++ c :: t)) (hc : isBlank c = false) (he : c ≠ '=') :
    ofRest? lead (name ++ (gap ++ c :: t)) = none := by
  have hc : Stops isBlank (c :: t) := stops_cons.2 hc
  simp [ofRest?, takeWhile_append_of_stops hname hs, dropWhile_append_of_stops hname hs,
    dropWhile_append_of_stops hgap hc, he]

/-! ### Lines -/

namespace LineForm

/-- The parts of a form are made of the characters that the grammar asks for. -/
def Fits : LineForm → Prop
  | .comment lead _ _ => ∀ c ∈ lead, isBlank c = true
  | .header lead name trail => (∀ c ∈ lead, isBlank c = true) ∧ (∀ c ∈ name, isWord c = true) ∧
      name ≠ [] ∧ ∀ c ∈ trail, isBlank c = true
  | .pair p => p.Fits

theorem fits_of_ofBody? {body : Text} {f : LineForm} (h : ofBody? body = some f) : f.Fits := by
  have hlead : ∀ c ∈ body.takeWhile isBlank, isBlank c = true := fun _ hc => List.mem_takeWhile_imp hc
  simp only [ofBody?] at h
  split at h
  · cases h
  · split at h
    · cases h; exact hlead
    · split at h
      · simp only [header?] at h
        split at h
        · cases h
        · split at h
          · next hc =>
            cases h
            simp only [Bool.and_eq_true, Bool.not_eq_true', List.all_eq_true] at hc
            exact ⟨hlead, fun _ hc => List.mem_takeWhile_imp hc, by simpa using hc.1.2, hc.2⟩
          · cases h
      · obtain ⟨p, hp, rfl⟩ := Option.map_eq_some_iff.1 h
        exact Pair.fits_of_ofRest? hlead hp

/-- A line that begins like neither a comment nor a header can only be a pair. -/
theorem ofBody?_append_cons {lead t : Text} {c : Char} (hlead : ∀ c ∈ lead, isBlank c = true)
    (hc : isBlank c = false) (hm : Marker.ofChar? c = none) (hb : c ≠ '[') :
    ofBody? (lead ++ c :: t) = (Pair.ofRest? lead (c :: t)).map .pair := by
  have hs : Stops isBlank (c :: t) := stops_cons.2 hc
  simp [ofBody?, takeWhile_append_of_stops hlead hs, dropWhile_append_of_stops hlead hs, hm, hb]

theorem ofBody?_pair {p : Pair} (h : p.Fits) : ofBody? p.render = some (.pair p) := by
  obtain ⟨c, name, hn⟩ := List.exists_cons_of_ne_nil h.name_ne
  have hc : isAlphanumeric c = true := h.name c (by simp [hn])
  have hr := Pair.ofRest?_of_fits h
  have hb : c ≠ '[' := by rintro rfl; exact absurd hc (by decide)
  rw [hn] at hr
  rw [Pair.render, List.append_assoc, List.append_assoc, hn, List.cons_append,
    ofBody?_append_cons h.lead (isBlank_of_isAlphanumeric hc) (Marker.ofChar?_of_isAlphanumeric hc) hb]
  exact congrArg _ hr

theorem ofBody?_of_fits {f : LineForm} (h : f.Fits) : ofBody? f.render = some f := by
  cases f with
  | comment lead marker rest =>
    have hs : Stops isBlank (marker.char :: rest) := by simpa using marker.isBlank_char
    simp [ofBody?, render, takeWhile_append_of_stops h hs, dropWhile_append_of_stops h hs,
      Marker.ofChar?_char]
  | header lead name trail =>
    obtain ⟨hlead, hname, hne, htrail⟩ := h
    have hs : Stops isBlank ('[' :: (name ++ ']' :: trail)) := by simp; decide
    have hw : Stops isWord (']' :: trail) := by simpa using isWord_bracket
    have hm : Marker.ofChar? '[' = none := by decide
    simp only [ofBody?, render, List.append_assoc, List.cons_append,
      takeWhile_append_of_stops hlead hs, dropWhile_append_of_stops hlead hs, hm, header?,
      takeWhile_append_of_stops hname hw, dropWhile_append_of_stops hname hw]
    simpa [hne] using htrail
  | pair p => exact ofBody?_pair h

/-- A line is read as a form exactly if the parts of the form fit and make up the line. -/
theorem ofBody?_eq_some_iff {body : Text} {f : LineForm} :
    ofBody? body = some f ↔ f.render = body ∧ f.Fits := by
  constructor
  · intro h; exact ⟨render_of_ofBody? h, fits_of_ofBody? h⟩
  · rintro ⟨rfl, h⟩; exact ofBody?_of_fits h

theorem ofBody?_nil : ofBody? [] = none := rfl

end LineForm

end TunnelConf
