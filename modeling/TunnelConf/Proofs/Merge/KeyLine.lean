import TunnelConf.Merge
import TunnelConf.Proofs.Grammar
import TunnelConf.Proofs.Lines

/-!
# The lines of a key

How merging reads a line of a key, and how the scanner reads the same line. Main statements:
`KeyLine.ofBody?_eq_some_iff`, the parts of a line of a key; `KeyLine.apply_add`, adding a value
puts one line of the key in the place of another; `KeyLine.ofBody?_render`, the scanner sees a pair
of that name in it, unless the name is spelled with letters outside ASCII or the line has neither
an equals sign nor an end behind the name.
-/

namespace TunnelConf

open Text

/-! ### Names up to letter case -/

/-- `t` consists of ASCII characters. -/
def Text.Ascii (t : Text) : Prop := ∀ c ∈ t, c.toNat < 128

/-- What is the same for a capital and its small letter is the same for all characters up to case. -/
theorem Text.apply_lowerChar {α : Type} {f : Char → α}
    (hf : ∀ n : Nat, n < 26 → f (Char.ofNat (65 + n + 32)) = f (Char.ofNat (65 + n))) (c : Char) :
    f (lowerChar c) = f c := by
  rw [lowerChar]
  split
  · next h =>
    simp only [Bool.and_eq_true, decide_eq_true_eq, Char.le_def, UInt32.le_iff_toNat_le] at h
    have hA : ('A' : Char).val.toNat = 65 := rfl
    have hZ : ('Z' : Char).val.toNat = 90 := rfl
    have hc : c.toNat = c.val.toNat := rfl
    obtain ⟨n, hn⟩ := Nat.exists_eq_add_of_le (show 65 ≤ c.toNat by omega)
    have hcase := hf n (by omega)
    rwa [← hn, Char.ofNat_toNat] at hcase
  · rfl

theorem Text.isAlphanumeric_lowerChar (c : Char) : isAlphanumeric (lowerChar c) = isAlphanumeric c :=
  apply_lowerChar (by decide) c

theorem Text.forall_mem_lower_iff {p : Char → Bool} (hp : ∀ c, p (lowerChar c) = p c) {t : Text} :
    (∀ c ∈ lower t, p c = true) ↔ ∀ c ∈ t, p c = true := by
  simp [lower, hp]

namespace KeyName

/-- `name` is `key` up to the letter case that merging looks past. -/
def Spells (key name : Text) : Prop := name.map fold = key.map fold

theorem fold_of_lt {c : Char} (h : c.toNat < 128) : fold c = lowerChar c := by
  have h₁ : c ≠ '\u212a' := by rintro rfl; exact absurd h (by decide)
  have h₂ : c ≠ '\u017f' := by rintro rfl; exact absurd h (by decide)
  simp [fold, h₁, h₂]

/-- Up to case a character of a name is an ASCII letter or digit, or one of the two letters outside
ASCII. -/
theorem isAlphanumeric_or_of_fold {c k : Char} (hk : isAlphanumeric k = true) (h : fold c = fold k) :
    isAlphanumeric c = true ∨ c = '\u212a' ∨ c = '\u017f' := by
  by_cases h₁ : c = '\u212a'
  · exact .inr (.inl h₁)
  by_cases h₂ : c = '\u017f'
  · exact .inr (.inr h₂)
  have hc : fold c = lowerChar c := by simp [fold, h₁, h₂]
  rw [hc, fold_of_lt (toNat_lt_of_isAlphanumeric hk)] at h
  exact .inl (by rw [← isAlphanumeric_lowerChar, h, isAlphanumeric_lowerChar, hk])

theorem map_fold_of_ascii {t : Text} (h : Ascii t) : t.map fold = lower t :=
  List.map_congr_left fun c hc => fold_of_lt (h c hc)

theorem ascii_of_isAlphanumeric {t : Text} (h : ∀ c ∈ t, isAlphanumeric c = true) : Ascii t :=
  fun c hc => toNat_lt_of_isAlphanumeric (h c hc)

theorem divide?_eq_some_iff {key t a b : Text} :
    divide? key t = some (a, b) ↔ t = a ++ b ∧ Spells key a := by
  induction key generalizing t a with
  | nil =>
    simp only [divide?, Option.some.injEq, Prod.mk.injEq, Spells, List.map_nil, List.map_eq_nil_iff]
    constructor
    · rintro ⟨rfl, rfl⟩; exact ⟨rfl, rfl⟩
    · rintro ⟨rfl, rfl⟩; exact ⟨rfl, rfl⟩
  | cons k ks ih =>
    cases t with
    | nil =>
      simp only [divide?, reduceCtorEq, false_iff]
      rintro ⟨h, hs⟩
      obtain ⟨rfl, -⟩ := List.append_eq_nil_iff.1 h.symm
      simp [Spells] at hs
    | cons c t =>
      rw [divide?]
      constructor
      · intro h
        split at h
        · next hc =>
          obtain ⟨⟨a', b'⟩, hd, hab⟩ := Option.map_eq_some_iff.1 h
          obtain ⟨rfl, rfl⟩ := Prod.mk.inj hab
          obtain ⟨rfl, hs⟩ := ih.1 hd
          exact ⟨rfl, by simpa [Spells, hc] using hs⟩
        · cases h
      · rintro ⟨h, hs⟩
        cases a with
        | nil => simp [Spells] at hs
        | cons d a =>
          obtain ⟨rfl, rfl⟩ := List.cons.inj h
          obtain ⟨hc, hs⟩ : fold c = fold k ∧ Spells ks a := by simpa [Spells] using hs
          simp [hc, ih.2 ⟨rfl, hs⟩]

variable {key : KeyName} {name : Text}

theorem isAlphanumeric_of_mem (key : KeyName) : ∀ c ∈ key.text, isAlphanumeric c = true := by
  simpa using key.alphanumeric

theorem Spells.isAlphanumeric_or (h : Spells key.text name) {c : Char} (hc : c ∈ name) :
    isAlphanumeric c = true ∨ c = '\u212a' ∨ c = '\u017f' := by
  have : fold c ∈ key.text.map fold := h ▸ List.mem_map_of_mem hc
  obtain ⟨k, hk, hkc⟩ := List.mem_map.1 this
  exact isAlphanumeric_or_of_fold (key.isAlphanumeric_of_mem k hk) hkc.symm

theorem Spells.ne_nil (h : Spells key.text name) : name ≠ [] := by
  rintro rfl
  exact key.nonempty (by simpa [Spells] using h.symm)

theorem Spells.isAlphanumeric (h : Spells key.text name) (ha : Ascii name) :
    ∀ c ∈ name, isAlphanumeric c = true := by
  intro c hc
  rcases h.isAlphanumeric_or hc with h | rfl | rfl
  · exact h
  · exact absurd (ha _ hc) (by decide)
  · exact absurd (ha _ hc) (by decide)

/-- In ASCII merging knows the names that are equal up to the case of ASCII letters. -/
theorem spells_and_ascii_iff : Spells key.text name ∧ Ascii name ↔ lower name = lower key.text := by
  have hk : Ascii key.text := ascii_of_isAlphanumeric key.isAlphanumeric_of_mem
  constructor
  · rintro ⟨h, ha⟩
    rwa [Spells, map_fold_of_ascii ha, map_fold_of_ascii hk] at h
  · intro h
    have hname := (forall_mem_lower_iff isAlphanumeric_lowerChar).2 key.isAlphanumeric_of_mem
    rw [← h, forall_mem_lower_iff isAlphanumeric_lowerChar] at hname
    have ha : Ascii name := ascii_of_isAlphanumeric hname
    exact ⟨by rw [Spells, map_fold_of_ascii ha, map_fold_of_ascii hk, h], ha⟩

end KeyName

/-! ### Lines and their parts -/

namespace KeyLine

def lead : KeyLine → Text
  | .bare lead _ _ | .assigned lead _ _ _ | .loose lead _ _ _ => lead

def name : KeyLine → Text
  | .bare _ name _ | .assigned _ name _ _ | .loose _ name _ _ => name

def gap : KeyLine → Text
  | .bare _ _ gap | .assigned _ _ gap _ | .loose _ _ gap _ => gap

/-- What follows the gap. -/
def rest : KeyLine → Text
  | .bare .. => []
  | .assigned _ _ _ value => '=' :: value
  | .loose _ _ _ value => value

def render (k : KeyLine) : Text := k.lead ++ (k.name ++ (k.gap ++ k.rest))

/-- The name is one of the key, with blanks only around it, and a value without an equals sign is
set apart from the name. -/
structure Fits (key : Text) (k : KeyLine) : Prop where
  lead : ∀ c ∈ k.lead, isBlank c = true
  spells : KeyName.Spells key k.name
  gap : ∀ c ∈ k.gap, isBlank c = true
  rest : Stops isBlank k.rest
  loose : ∀ lead name gap value, k = .loose lead name gap value →
    gap ≠ [] ∧ value ≠ [] ∧ value.head? ≠ some '='

theorem fits_of_ofBody? {key body : Text} {k : KeyLine} (h : ofBody? key body = some k) :
    k.render = body ∧ k.Fits key := by
  have hlead : ∀ c ∈ body.takeWhile isBlank, isBlank c = true := fun _ hc => List.mem_takeWhile_imp hc
  simp only [ofBody?, Option.bind_eq_some_iff] at h
  obtain ⟨⟨name, tail⟩, hd, h⟩ := h
  obtain ⟨hname, hs⟩ := KeyName.divide?_eq_some_iff.1 hd
  have hgap : ∀ c ∈ tail.takeWhile isBlank, isBlank c = true := fun _ hc => List.mem_takeWhile_imp hc
  have hb : body.takeWhile isBlank ++ (name ++ (tail.takeWhile isBlank ++ tail.dropWhile isBlank)) = body := by
    rw [List.takeWhile_append_dropWhile, ← hname, List.takeWhile_append_dropWhile]
  have hstops := stops_dropWhile isBlank tail
  dsimp only at h
  split at h
  · next hr =>
    cases h
    rw [hr] at hb hstops
    exact ⟨hb, hlead, hs, hgap, hstops, fun _ _ _ _ h => by cases h⟩
  · next c r hr =>
    rw [hr] at hb hstops
    split at h
    · next heq =>
      subst heq
      cases h
      exact ⟨hb, hlead, hs, hgap, hstops, fun _ _ _ _ h => by cases h⟩
    · next hne =>
      split at h
      · cases h
      · next hg =>
        cases h
        refine ⟨hb, hlead, hs, hgap, hstops, fun _ _ _ _ h => ?_⟩
        cases h
        exact ⟨by simpa using hg, by simp, by simpa using hne⟩

theorem exists_cons_of_spells {key : KeyName} {name : Text} (h : KeyName.Spells key.text name) :
    ∃ c t, name = c :: t ∧ isBlank c = false ∧ Marker.ofChar? c = none ∧ c ≠ '[' := by
  obtain ⟨c, t, rfl⟩ := List.exists_cons_of_ne_nil h.ne_nil
  refine ⟨c, t, rfl, ?_⟩
  rcases h.isAlphanumeric_or (List.mem_cons_self ..) with hc | rfl | rfl
  · exact ⟨isBlank_of_isAlphanumeric hc, Marker.ofChar?_of_isAlphanumeric hc, by
      rintro rfl; exact absurd hc (by decide)⟩
  · decide
  · decide

theorem stops_name {key : KeyName} {name t : Text} (h : KeyName.Spells key.text name) :
    Stops isBlank (name ++ t) := by
  obtain ⟨c, t, rfl, hc, -⟩ := exists_cons_of_spells h
  exact stops_cons.2 hc

theorem ofBody?_of_fits {key : KeyName} {k : KeyLine} (h : k.Fits key.text) :
    ofBody? key.text k.render = some k := by
  have hn := stops_name (t := k.gap ++ k.rest) h.spells
  simp only [ofBody?, render, takeWhile_append_of_stops h.lead hn,
    dropWhile_append_of_stops h.lead hn, KeyName.divide?_eq_some_iff.2 ⟨rfl, h.spells⟩,
    Option.bind_some, takeWhile_append_of_stops h.gap h.rest, dropWhile_append_of_stops h.gap h.rest]
  cases k with
  | bare lead name gap => rfl
  | assigned lead name gap value => rfl
  | loose lead name gap value =>
    obtain ⟨hg, hv, he⟩ := h.loose _ _ _ _ rfl
    obtain ⟨c, r, rfl⟩ := List.exists_cons_of_ne_nil hv
    have hc : c ≠ '=' := by simpa using he
    simp [rest, KeyLine.gap, KeyLine.lead, KeyLine.name, hc, hg]

/-- A line is one of the key exactly if its parts fit and make it up. -/
theorem ofBody?_eq_some_iff {key : KeyName} {body : Text} {k : KeyLine} :
    ofBody? key.text body = some k ↔ k.render = body ∧ k.Fits key.text := by
  constructor
  · exact fits_of_ofBody?
  · rintro ⟨rfl, h⟩; exact ofBody?_of_fits h

theorem ofBody?_nil (key : KeyName) : ofBody? key.text [] = none := by
  rw [Option.eq_none_iff_forall_ne_some]
  intro k h
  obtain ⟨hr, hk⟩ := ofBody?_eq_some_iff.1 h
  exact hk.spells.ne_nil (by simp_all [render])

/-! ### Adding a value -/

/-- The values of the line once `value` is added. -/
def gather (value : Text) : KeyLine → Text
  | .bare .. => value
  | .assigned _ _ _ old => if (trim old).isEmpty then value else join (trim old) value
  | .loose _ _ _ old => join (trim old) value

/-- The line once `value` is added. -/
def added (value : Text) : KeyLine → KeyLine
  | .bare lead name gap => .assigned lead name [' '] (' ' :: gather value (.bare lead name gap))
  | .assigned lead name gap old => .assigned lead name gap (' ' :: gather value (.assigned lead name gap old))
  | .loose lead name gap old => .assigned lead name gap (' ' :: gather value (.loose lead name gap old))

variable {key : KeyName} {value : Text} {k : KeyLine}

/-- What adding does: behind the name, perhaps further on, it writes `new` in the place of all that
the line has there. -/
theorem add_eq_replace (k : KeyLine) (value : Text) (n : Nat) :
    ∃ mid old new, k.render = k.lead ++ k.name ++ mid ++ old ∧
      (k.added value).render = k.lead ++ k.name ++ mid ++ new ∧ new.head? ≠ some '\n' ∧
      k.add value n = .replace (n + size (k.lead ++ k.name ++ mid))
        (n + size (k.lead ++ k.name ++ mid) + size old) new := by
  have he : ('=' : Char).utf8Size = 1 := rfl
  cases k with
  | bare lead name gap =>
    refine ⟨[], gap, " = ".toList ++ value, ?_, ?_, by simp, ?_⟩
    all_goals simp [render, KeyLine.lead, KeyLine.name, KeyLine.gap, rest, added, gather, add,
      Nat.add_assoc]
  | assigned lead name gap old =>
    refine ⟨gap ++ ['='], old, ' ' :: gather value (.assigned lead name gap old), ?_, ?_, by simp, ?_⟩
    all_goals simp [render, KeyLine.lead, KeyLine.name, KeyLine.gap, rest, added, gather, add,
      Nat.add_assoc, he]
  | loose lead name gap old =>
    refine ⟨gap, old, "= ".toList ++ gather value (.loose lead name gap old), ?_, ?_, by simp, ?_⟩
    all_goals simp [render, KeyLine.lead, KeyLine.name, KeyLine.gap, rest, added, gather, add,
      Nat.add_assoc]

/-- Adding a value to a line at its offset puts the other line in its place. -/
theorem apply_add (k : KeyLine) (value before after : Text) :
    (k.add value (size before)).apply (before ++ k.render ++ after) =
      .ok (before ++ (k.added value).render ++ after) := by
  obtain ⟨mid, old, new, h₁, h₂, -, h₃⟩ := add_eq_replace k value (size before)
  rw [h₁, h₂, h₃, ← size_append]
  simpa only [List.append_assoc] using
    Splice.apply_replace (before ++ (k.lead ++ k.name ++ mid)) old after new

theorem le_start_add (k : KeyLine) (value : Text) (n : Nat) :
    n + size k.lead + size k.name ≤ (k.add value n).start := by
  obtain ⟨mid, old, new, -, -, -, h⟩ := add_eq_replace k value n
  simp only [h, Splice.replace, size_append]; omega

theorem stop_add (k : KeyLine) (value : Text) (n : Nat) :
    (k.add value n).stop = n + size k.render := by
  obtain ⟨mid, old, new, h₁, -, -, h⟩ := add_eq_replace k value n
  simp only [h₁, h, Splice.replace, Splice.stop, size_append]; omega

/-- What is written goes to the end of the line. -/
theorem start_add_size_add (k : KeyLine) (value : Text) (n : Nat) :
    (k.add value n).start + size (k.add value n).replacement = n + size (k.added value).render := by
  obtain ⟨mid, old, new, -, h₂, -, h⟩ := add_eq_replace k value n
  simp only [h₂, h, Splice.replace, size_append]; omega

theorem head?_replacement_add (k : KeyLine) (value : Text) (n : Nat) :
    (k.add value n).replacement.head? ≠ some '\n' := by
  obtain ⟨mid, old, new, -, -, hn, h⟩ := add_eq_replace k value n
  rw [h]; exact hn

@[simp] theorem lead_added : (k.added value).lead = k.lead := by cases k <;> rfl

@[simp] theorem name_added : (k.added value).name = k.name := by cases k <;> rfl

theorem added_eq (k : KeyLine) (value : Text) :
    ∃ gap, k.added value = .assigned k.lead k.name gap (' ' :: k.gather value) ∧ ∀ c ∈ gap, c ∈ k.gap ∨ c = ' ' := by
  cases k with
  | bare lead name gap => exact ⟨[' '], rfl, by simp⟩
  | assigned lead name gap old => exact ⟨gap, rfl, fun c hc => .inl hc⟩
  | loose lead name gap old => exact ⟨gap, rfl, fun c hc => .inl hc⟩

theorem Fits.added (h : k.Fits key.text) (value : Text) : (k.added value).Fits key.text := by
  obtain ⟨gap, hk, hgap⟩ := added_eq k value
  rw [hk]
  refine ⟨h.lead, h.spells, fun c hc => ?_, stops_cons.2 (by decide), fun _ _ _ _ h => by cases h⟩
  rcases hgap c hc with hc | rfl
  · exact h.gap c hc
  · rfl

theorem isBody_join {old : Text} (ho : Line.IsBody old) (hv : Line.IsBody value) :
    Line.IsBody (join old value) := by
  unfold join
  split
  · exact Line.isBody_append.2 ⟨ho, hv⟩
  · exact Line.isBody_append.2 ⟨ho, Line.isBody_cons.2 ⟨by decide, hv⟩⟩

theorem isBody_gather (hk : Line.IsBody k.rest) (hv : Line.IsBody value) :
    Line.IsBody (k.gather value) := by
  cases k with
  | bare lead name gap => exact hv
  | assigned lead name gap old =>
    have ho : Line.IsBody (trim old) := fun c hc => hk c (List.mem_cons_of_mem _ (mem_of_mem_trim hc))
    simp only [gather]
    split
    · exact hv
    · exact isBody_join ho hv
  | loose lead name gap old => exact isBody_join (fun c hc => hk c (mem_of_mem_trim hc)) hv

theorem isBody_added (hk : Line.IsBody k.render) (hv : Line.IsBody value) :
    Line.IsBody (k.added value).render := by
  obtain ⟨gap, ha, hgap⟩ := added_eq k value
  simp only [render, Line.isBody_append] at hk
  have hg : Line.IsBody gap := fun c hc => (hgap c hc).elim (hk.2.2.1 c) (by rintro rfl; decide)
  rw [ha]
  simp only [render, Line.isBody_append]
  exact ⟨hk.1, hk.2.1, hg, Line.isBody_cons.2 ⟨by decide, Line.isBody_cons.2 ⟨by decide,
    isBody_gather hk.2.2.2 hv⟩⟩⟩

theorem render_added_ne_nil (h : k.Fits key.text) : (k.added value).render ≠ [] := by
  simp [render, h.spells.ne_nil]

/-! ### How the scanner reads the line -/

/-- The form of the line if its name is in ASCII. -/
def form? : KeyLine → Option LineForm
  | .bare lead name gap => some (.pair ⟨lead, name, gap, none⟩)
  | .assigned lead name gap value => some (.pair ⟨lead, name, gap, some (.ofRest value)⟩)
  | .loose .. => none

theorem ofBody?_render (h : k.Fits key.text) : LineForm.ofBody? k.render =
    (Pair.ofRest? k.lead (k.name ++ (k.gap ++ k.rest))).map .pair := by
  obtain ⟨c, t, hn, hc, hm, hb⟩ := exists_cons_of_spells h.spells
  rw [render, hn, List.cons_append, LineForm.ofBody?_append_cons h.lead hc hm hb]

theorem ofBody?_render_of_ascii (h : k.Fits key.text) (ha : Ascii k.name) :
    LineForm.ofBody? k.render = k.form? := by
  have hname := h.spells.isAlphanumeric ha
  cases k with
  | bare lead name gap =>
    have hp : Pair.Fits ⟨lead, name, gap, none⟩ :=
      ⟨h.lead, hname, h.spells.ne_nil, h.gap, by simp⟩
    have := LineForm.ofBody?_pair hp
    simpa [render, Pair.render, form?, KeyLine.lead, KeyLine.name, KeyLine.gap, rest] using this
  | assigned lead name gap value =>
    have hp : Pair.Fits ⟨lead, name, gap, some (.ofRest value)⟩ :=
      ⟨h.lead, hname, h.spells.ne_nil, h.gap, by simpa using Assignment.fits_ofRest value⟩
    have := LineForm.ofBody?_pair hp
    simpa [render, Pair.render, form?, KeyLine.lead, KeyLine.name, KeyLine.gap, rest,
      Assignment.render_ofRest] using this
  | loose lead name gap value =>
    obtain ⟨hg, hv, he⟩ := h.loose _ _ _ _ rfl
    obtain ⟨c, t, rfl⟩ := List.exists_cons_of_ne_nil hv
    obtain ⟨b, g, rfl⟩ := List.exists_cons_of_ne_nil hg
    have hs : Stops isAlphanumeric ((b :: g) ++ c :: t) :=
      stops_cons.2 (isAlphanumeric_of_isBlank (h.gap b (List.mem_cons_self ..)))
    have hr := Pair.ofRest?_eq_none lead hname h.gap hs (stops_cons.1 h.rest) (by simpa using he)
    rw [ofBody?_render h]
    exact congrArg _ hr

theorem ofBody?_render_of_not_ascii (h : k.Fits key.text) (ha : ¬ Ascii k.name) :
    LineForm.ofBody? k.render = none := by
  obtain ⟨a, b, hab, hall, hs⟩ := exists_run isAlphanumeric k.name
  cases b with
  | nil =>
    rw [List.append_nil] at hab
    exact absurd (KeyName.ascii_of_isAlphanumeric (hab ▸ hall)) ha
  | cons c b =>
    have hc : isBlank c = false ∧ c ≠ '=' := by
      rcases h.spells.isAlphanumeric_or (c := c) (by simp [hab]) with hc | rfl | rfl
      · rw [stops_cons.1 hs] at hc; cases hc
      · decide
      · decide
    have hgap : ∀ c ∈ ([] : Text), isBlank c = true := by simp
    have hr := Pair.ofRest?_eq_none k.lead (t := b ++ (k.gap ++ k.rest)) hall hgap hs hc.1 hc.2
    rw [ofBody?_render h, hab, List.append_assoc]
    exact congrArg _ hr

/-- A pair of the same name is a line of the key. -/
theorem exists_ofBody?_of_pair {body : Text} {p : Pair} (h : LineForm.ofBody? body = some (.pair p))
    (hp : lower p.name = lower key.text) : ∃ k, ofBody? key.text body = some k := by
  obtain ⟨rfl, hf⟩ := LineForm.ofBody?_eq_some_iff.1 h
  have hs := (KeyName.spells_and_ascii_iff.2 hp).1
  cases ha : p.assignment with
  | none =>
    refine ⟨.bare p.lead p.name p.gap, ofBody?_eq_some_iff.2 ⟨?_, hf.lead, hs, hf.gap, by simp [rest],
      fun _ _ _ _ h => by cases h⟩⟩
    simp [render, LineForm.render, Pair.render, KeyLine.lead, KeyLine.name, KeyLine.gap, rest, ha]
  | some a =>
    refine ⟨.assigned p.lead p.name p.gap (a.after ++ a.value ++ a.trail), ofBody?_eq_some_iff.2
      ⟨?_, hf.lead, hs, hf.gap, stops_cons.2 (by decide), fun _ _ _ _ h => by cases h⟩⟩
    simp [render, LineForm.render, Pair.render, KeyLine.lead, KeyLine.name, KeyLine.gap, rest, ha,
      Assignment.render]

end KeyLine

end TunnelConf
