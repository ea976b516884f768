import Mathlib.Data.List.DropRight
import TunnelConf.Text.Space

/-!
# Parts of a text

What cutting, taking runs of characters and trimming yield, said of a text given as parts put
together: `slice?_eq_some_iff` for the bytes of a stretch, `takeWhile_append_of_stops` and
`dropWhile_append_of_stops` for a run and what stops it, `trim_eq_self_iff` and `trimmed_trim` for
texts without white space at their ends.
-/

namespace TunnelConf.Text

variable {p : Char → Bool}

/-! ### Sizes and stretches -/

@[simp] theorem size_eq_zero_iff {t : Text} : size t = 0 ↔ t = [] := by
  cases t with
  | nil => simp
  | cons c t =>
    have := Char.utf8Size_pos c
    simp only [size_cons, reduceCtorEq, iff_false]; omega

theorem size_pos_iff {t : Text} : 0 < size t ↔ t ≠ [] := by
  rw [Nat.pos_iff_ne_zero, ne_eq, size_eq_zero_iff]

theorem size_eq_length {t : Text} (h : ∀ c ∈ t, c.utf8Size = 1) : size t = t.length := by
  induction t with
  | nil => rfl
  | cons c t ih =>
    obtain ⟨hc, ht⟩ := List.forall_mem_cons.1 h
    rw [size_cons, hc, ih ht, List.length_cons, Nat.add_comm]

theorem cut?_eq_some_iff {n : Nat} {t a b : Text} :
    cut? n t = some (a, b) ↔ t = a ++ b ∧ size a = n := by
  constructor
  · intro h
    obtain ⟨h₁, h₂⟩ := append_of_cut? h
    exact ⟨h₁.symm, h₂⟩
  · rintro ⟨rfl, rfl⟩; exact cut?_append a b

theorem isBoundary_append (a b : Text) : isBoundary (size a) (a ++ b) = true := by
  simp [isBoundary]

theorem isBoundary_iff {n : Nat} {t : Text} : isBoundary n t = true ↔ ∃ a b, t = a ++ b ∧ size a = n := by
  constructor
  · intro h
    obtain ⟨⟨a, b⟩, hab⟩ := Option.isSome_iff_exists.1 h
    exact ⟨a, b, cut?_eq_some_iff.1 hab⟩
  · rintro ⟨a, b, rfl, rfl⟩
    exact isBoundary_append a b

/-- The parts of a text that cover the bytes of a stretch. -/
theorem slice?_eq_some_iff {start len : Nat} {t b : Text} :
    slice? start len t = some b ↔ ∃ a c, t = a ++ b ++ c ∧ size a = start ∧ size b = len := by
  constructor
  · intro h
    simp only [slice?, Option.bind_eq_bind, Option.bind_eq_some_iff, Option.pure_def,
      Option.some.injEq] at h
    obtain ⟨⟨a, rest⟩, h₁, ⟨b', c⟩, h₂, rfl⟩ := h
    obtain ⟨rfl, ha⟩ := cut?_eq_some_iff.1 h₁
    obtain ⟨rfl, hb⟩ := cut?_eq_some_iff.1 h₂
    exact ⟨a, c, by simp, ha, hb⟩
  · rintro ⟨a, c, rfl, rfl, rfl⟩
    simp [slice?, List.append_assoc]

/-! ### Runs -/

/-- `t` does not begin with a character that satisfies `p`. -/
def Stops (p : Char → Bool) (t : Text) : Prop := ∀ c ∈ t.head?, p c = false

@[simp] theorem stops_nil : Stops p [] := by simp [Stops]

@[simp] theorem stops_cons {c : Char} {t : Text} : Stops p (c :: t) ↔ p c = false := by
  simp [Stops]

theorem Stops.append {a b : Text} (ha : Stops p a) (hb : Stops p b) : Stops p (a ++ b) := by
  cases a with
  | nil => exact hb
  | cons c a => exact stops_cons.2 (stops_cons.1 ha)

theorem takeWhile_of_stops {t : Text} (h : Stops p t) : t.takeWhile p = [] := by
  cases t with
  | nil => rfl
  | cons c t => rw [List.takeWhile_cons, stops_cons.1 h]; rfl

theorem dropWhile_of_stops {t : Text} (h : Stops p t) : t.dropWhile p = t := by
  cases t with
  | nil => rfl
  | cons c t => rw [List.dropWhile_cons, stops_cons.1 h]; rfl

theorem takeWhile_append_of_stops {a b : Text} (ha : ∀ c ∈ a, p c = true) (hb : Stops p b) :
    (a ++ b).takeWhile p = a := by
  rw [List.takeWhile_append_of_pos ha, takeWhile_of_stops hb, List.append_nil]

theorem dropWhile_append_of_stops {a b : Text} (ha : ∀ c ∈ a, p c = true) (hb : Stops p b) :
    (a ++ b).dropWhile p = b := by
  rw [List.dropWhile_append_of_pos ha, dropWhile_of_stops hb]

theorem stops_dropWhile (p : Char → Bool) (t : Text) : Stops p (t.dropWhile p) := by
  intro c hc
  have := List.head?_dropWhile_not p t
  rw [Option.mem_def.1 hc] at this
  simpa using this

theorem exists_run (p : Char → Bool) (t : Text) :
    ∃ a b, t = a ++ b ∧ (∀ c ∈ a, p c = true) ∧ Stops p b :=
  ⟨t.takeWhile p, t.dropWhile p, List.takeWhile_append_dropWhile.symm,
    fun _ hc => List.mem_takeWhile_imp hc, stops_dropWhile p t⟩

/-! ### Stretches between characters -/

theorem splitWhere_eq_splitOnP (p : Char → Bool) (t : Text) : splitWhere p t = t.splitOnP p := by
  induction t with
  | nil => rfl
  | cons c t ih =>
    rw [splitWhere, List.splitOnP_cons_eq_if_modifyHead, ih]
    obtain ⟨s, ss, hs⟩ := List.exists_cons_of_ne_nil (List.splitOnP_ne_nil p t)
    rw [hs]; rfl

theorem splitWhere_ne_nil (p : Char → Bool) (t : Text) : splitWhere p t ≠ [] :=
  splitWhere_eq_splitOnP p t ▸ List.splitOnP_ne_nil p t

theorem splitWhere_append_cons {c : Char} (hc : p c = true) (a b : Text) :
    splitWhere p (a ++ c :: b) = splitWhere p a ++ splitWhere p b := by
  simp only [splitWhere_eq_splitOnP]
  exact List.splitOnP_append_cons a b hc

theorem splitWhere_eq_singleton {t : Text} (h : ∀ c ∈ t, p c = false) : splitWhere p t = [t] := by
  rw [splitWhere_eq_splitOnP, List.splitOnP_eq_singleton h]

theorem forall_of_mem_splitWhere {s t : Text} (h : s ∈ splitWhere p t) : ∀ c ∈ s, p c = false := by
  induction t generalizing s with
  | nil =>
    obtain rfl : s = [] := by simpa [splitWhere] using h
    simp
  | cons c t ih =>
    rw [splitWhere] at h
    split at h
    · rcases List.mem_cons.1 h with rfl | h
      · simp
      · exact ih h
    · next hc =>
      split at h
      · next hnil => exact absurd hnil (splitWhere_ne_nil p t)
      · next u us hu =>
        rcases List.mem_cons.1 h with rfl | h
        · exact List.forall_mem_cons.2 ⟨by simpa using hc, ih (by rw [hu]; exact List.mem_cons_self ..)⟩
        · exact ih (by rw [hu]; exact List.mem_cons_of_mem _ h)

theorem splitFirst?_eq_some_iff {c : Char} {t a b : Text} :
    splitFirst? c t = some (a, b) ↔ t = a ++ c :: b ∧ c ∉ a := by
  induction t generalizing a with
  | nil => simp [splitFirst?]
  | cons d t ih =>
    rw [splitFirst?]
    split
    · next hd =>
      subst hd
      constructor
      · intro h
        obtain ⟨rfl, rfl⟩ := Prod.mk.inj (Option.some.inj h)
        exact ⟨rfl, by simp⟩
      · rintro ⟨h, hd⟩
        cases a with
        | nil => rw [(List.cons.inj h).2]
        | cons e a => exact absurd (by simp [(List.cons.inj h).1]) hd
    · next hd =>
      rw [Option.map_eq_some_iff]
      constructor
      · rintro ⟨⟨x, y⟩, hp, h⟩
        obtain ⟨rfl, rfl⟩ := Prod.mk.inj h
        obtain ⟨rfl, hx⟩ := ih.1 hp
        exact ⟨rfl, by simpa [Ne.symm hd] using hx⟩
      · rintro ⟨h, hc⟩
        cases a with
        | nil => exact absurd (List.cons.inj h).1 hd
        | cons e a =>
          obtain ⟨rfl, rfl⟩ := List.cons.inj h
          exact ⟨(a, b), ih.2 ⟨rfl, fun ha => hc (List.mem_cons_of_mem _ ha)⟩, rfl⟩

theorem splitFirst?_eq_none_iff {c : Char} {t : Text} : splitFirst? c t = none ↔ c ∉ t := by
  induction t with
  | nil => simp [splitFirst?]
  | cons d t ih =>
    rw [splitFirst?]
    by_cases hd : d = c
    · simp [hd]
    · rw [if_neg hd, Option.map_eq_none_iff, ih, List.mem_cons, not_or]
      exact (and_iff_right (Ne.symm hd)).symm

theorem splitLast?_eq_none_iff {c : Char} {t : Text} : splitLast? c t = none ↔ c ∉ t := by
  induction t with
  | nil => simp [splitLast?]
  | cons d t ih =>
    rw [splitLast?, List.mem_cons, not_or, ← ih]
    cases splitLast? c t with
    | none => simp [eq_comm]
    | some p => simp

theorem splitLast?_eq_some_iff {c : Char} {t a b : Text} :
    splitLast? c t = some (a, b) ↔ t = a ++ c :: b ∧ c ∉ b := by
  induction t generalizing a with
  | nil => simp [splitLast?]
  | cons d t ih =>
    rw [splitLast?]
    cases hlast : splitLast? c t with
    | none =>
      have ht := splitLast?_eq_none_iff.1 hlast
      simp only [Option.ite_none_right_eq_some, Option.some.injEq, Prod.mk.injEq]
      constructor
      · rintro ⟨rfl, rfl, rfl⟩
        exact ⟨rfl, ht⟩
      · rintro ⟨h, -⟩
        cases a with
        | nil =>
          obtain ⟨rfl, rfl⟩ := List.cons.inj h
          exact ⟨rfl, rfl, rfl⟩
        | cons e a =>
          obtain ⟨rfl, rfl⟩ := List.cons.inj h
          exact absurd (List.mem_append_right a List.mem_cons_self) ht
    | some p =>
      obtain ⟨x, y⟩ := p
      constructor
      · rintro ⟨⟩
        obtain ⟨rfl, hy⟩ := ih.1 hlast
        exact ⟨rfl, hy⟩
      · rintro ⟨h, hb⟩
        cases a with
        | nil =>
          obtain ⟨rfl, rfl⟩ := List.cons.inj h
          rw [splitLast?_eq_none_iff.2 hb] at hlast
          cases hlast
        | cons e a =>
          obtain ⟨rfl, rfl⟩ := List.cons.inj h
          rw [ih.2 ⟨rfl, hb⟩] at hlast
          obtain ⟨rfl, rfl⟩ := Prod.mk.inj (Option.some.inj hlast)
          rfl

/-! ### Parts with a separator between them -/

theorem intercalate_concat {sep v : Text} {values : List Text} (hne : values ≠ []) :
    sep.intercalate (values ++ [v]) = sep.intercalate values ++ sep ++ v := by
  induction values with
  | nil => exact absurd rfl hne
  | cons w ws ih =>
    cases ws with
    | nil => simp [List.intercalate_cons_cons]
    | cons u us =>
      have ih := ih (List.cons_ne_nil u us)
      rw [List.cons_append, List.cons_append, List.intercalate_cons_cons, ← List.cons_append, ih,
        List.intercalate_cons_cons]
      simp only [List.append_assoc]

theorem not_mem_intercalate {c : Char} {sep : Text} {values : List Text} (hsep : c ∉ sep) (h : ∀ v ∈ values, c ∉ v) :
    c ∉ sep.intercalate values := by
  induction values with
  | nil => simp
  | cons w ws ih =>
    obtain ⟨hw, hws⟩ := List.forall_mem_cons.1 h
    cases ws with
    | nil => simpa using hw
    | cons u us =>
      rw [List.intercalate_cons_cons, List.mem_append, List.mem_append]
      exact not_or.2 ⟨not_or.2 ⟨hw, hsep⟩, ih hws⟩

/-! ### Trimming -/

/-- `t` does not end with a character that satisfies `p`. -/
def EndStops (p : Char → Bool) (t : Text) : Prop := ∀ c ∈ t.getLast?, p c = false

@[simp] theorem endStops_nil : EndStops p [] := by simp [EndStops]

theorem endStops_append {a b : Text} (hb : b ≠ []) : EndStops p (a ++ b) ↔ EndStops p b := by
  simp [EndStops, List.getLast?_append_of_ne_nil a hb]

theorem endStops_cons {c : Char} {t : Text} (ht : t ≠ []) : EndStops p (c :: t) ↔ EndStops p t :=
  endStops_append (a := [c]) ht

theorem trimEndWhile_eq_rdropWhile (p : Char → Bool) (t : Text) :
    trimEndWhile p t = t.rdropWhile p := by
  induction t with
  | nil => simp [trimEndWhile]
  | cons c t ih =>
    rw [trimEndWhile, ih]
    simp only [List.rdropWhile, List.reverse_cons, List.dropWhile_append]
    cases h : t.reverse.dropWhile p with
    | nil => by_cases hc : p c <;> simp [hc]
    | cons e r =>
      obtain ⟨x, y, hr⟩ := List.exists_cons_of_ne_nil (List.reverse_ne_nil_iff.2 (List.cons_ne_nil e r))
      have : (e :: (r ++ [c])).reverse = c :: (e :: r).reverse := by simp
      simp [hr, this, -List.reverse_cons]

theorem trimEndWhile_append_of_all {a b : Text} (hb : ∀ c ∈ b, p c = true) :
    trimEndWhile p (a ++ b) = trimEndWhile p a := by
  simp only [trimEndWhile_eq_rdropWhile, List.rdropWhile, List.reverse_append]
  rw [List.dropWhile_append_of_pos fun c hc => hb c (List.mem_reverse.1 hc)]

theorem trimEndWhile_eq_self_iff {t : Text} : trimEndWhile p t = t ↔ EndStops p t := by
  rw [trimEndWhile_eq_rdropWhile, List.rdropWhile_eq_self_iff]
  constructor
  · intro h c hc
    obtain ⟨hne, rfl⟩ := List.mem_getLast?_eq_getLast hc
    simpa using h hne
  · intro h hne
    simpa using h _ (List.getLast?_eq_getLast_of_ne_nil hne)

/-- Every text is one that does not end with a character that satisfies `p`, and a run of those. -/
theorem exists_trimEndWhile (p : Char → Bool) (t : Text) :
    ∃ b, t = trimEndWhile p t ++ b ∧ (∀ c ∈ b, p c = true) ∧ EndStops p (trimEndWhile p t) := by
  refine ⟨t.rtakeWhile p, ?_, fun c hc => List.mem_rtakeWhile_imp hc, ?_⟩
  · rw [trimEndWhile_eq_rdropWhile, List.rdropWhile_append_rtakeWhile]
  · rw [← trimEndWhile_eq_self_iff, trimEndWhile_eq_rdropWhile, trimEndWhile_eq_rdropWhile,
      List.rdropWhile_idempotent]

theorem stops_trimEndWhile {q : Char → Bool} {t : Text} (h : Stops q t) : Stops q (trimEndWhile p t) := by
  obtain ⟨b, ht, -, -⟩ := exists_trimEndWhile p t
  cases hu : trimEndWhile p t with
  | nil => simp
  | cons c u => rw [ht, hu] at h; simpa using h

/-- `t` has no white space at its ends. -/
structure Trimmed (t : Text) : Prop where
  head : Stops isSpace t
  last : EndStops isSpace t

theorem trimmed_trim (t : Text) : Trimmed (trim t) := by
  obtain ⟨-, -, -, hend⟩ := exists_trimEndWhile isSpace (t.dropWhile isSpace)
  exact ⟨stops_trimEndWhile (stops_dropWhile isSpace t), hend⟩

theorem trim_eq_self_iff {t : Text} : trim t = t ↔ Trimmed t := by
  constructor
  · intro h; rw [← h]; exact trimmed_trim t
  · rintro ⟨hh, hl⟩
    rw [trim, trimWhile, dropWhile_of_stops hh, trimEndWhile_eq_self_iff]
    exact hl

/-- Trimming takes a run of white space away at either end. -/
theorem exists_trim (t : Text) :
    ∃ a b, t = a ++ trim t ++ b ∧ (∀ c ∈ a, isSpace c = true) ∧ ∀ c ∈ b, isSpace c = true := by
  obtain ⟨b, h, hb, -⟩ := exists_trimEndWhile isSpace (t.dropWhile isSpace)
  refine ⟨t.takeWhile isSpace, b, ?_, fun _ hc => List.mem_takeWhile_imp hc, hb⟩
  conv_lhs => rw [← List.takeWhile_append_dropWhile (p := isSpace) (l := t), h]
  rw [List.append_assoc]; rfl

theorem isSpace_of_blanks {t : Text} (h : ∀ c ∈ t, isBlank c = true) : ∀ c ∈ t, isSpace c = true :=
  fun c hc => isSpace_of_isBlank (h c hc)

theorem trim_append_of_all {a b : Text} (ha : ∀ c ∈ a, isSpace c = true) : trim (a ++ b) = trim b := by
  rw [trim, trimWhile, List.dropWhile_append_of_pos ha]; rfl

theorem trimEndWhile_append {a b : Text} (ha : EndStops p a) :
    trimEndWhile p (a ++ b) = a ++ trimEndWhile p b := by
  obtain ⟨r, hb, hr, hend⟩ := exists_trimEndWhile p b
  conv_lhs => rw [hb, ← List.append_assoc, trimEndWhile_append_of_all hr]
  rw [trimEndWhile_eq_self_iff]
  by_cases hnil : trimEndWhile p b = []
  · rwa [hnil, List.append_nil]
  · exact (endStops_append hnil).2 hend

theorem trim_append_right_of_all {a b : Text} (hb : ∀ c ∈ b, isSpace c = true) : trim (a ++ b) = trim a := by
  rw [trim, trimWhile, List.dropWhile_append]
  split
  · next ha =>
    rw [trim, trimWhile, List.isEmpty_iff.1 ha, List.dropWhile_eq_nil_iff.2 hb]
  · rw [trimEndWhile_append_of_all hb]; rfl

theorem trim_cons_of_isSpace {c : Char} (hc : isSpace c = true) (t : Text) : trim (c :: t) = trim t :=
  trim_append_of_all (a := [c]) (by simpa using hc)

theorem trim_concat_of_isSpace {c : Char} (hc : isSpace c = true) (t : Text) : trim (t ++ [c]) = trim t :=
  trim_append_right_of_all (by simpa using hc)

theorem trim_trimEndWhile (t : Text) : trim (trimEndWhile isSpace t) = trim t := by
  obtain ⟨b, ht, hb, -⟩ := exists_trimEndWhile isSpace t
  conv_rhs => rw [ht]
  rw [trim_append_right_of_all hb]

theorem trim_append_of_trimmed {a b : Text} (ha : Trimmed a) (hne : a ≠ []) :
    trim (a ++ b) = a ++ trimEndWhile isSpace b := by
  have hs : Stops isSpace (a ++ b) := by
    obtain ⟨c, a, rfl⟩ := List.exists_cons_of_ne_nil hne
    simpa using ha.head
  rw [trim, trimWhile, dropWhile_of_stops hs, trimEndWhile_append ha.last]

theorem head?_trimEndWhile {t : Text} (h : Stops p t) : (trimEndWhile p t).head? = t.head? := by
  obtain ⟨b, ht, hb, -⟩ := exists_trimEndWhile p t
  cases hu : trimEndWhile p t with
  | cons c u => rw [ht, hu]; rfl
  | nil =>
    cases t with
    | nil => rfl
    | cons c t =>
      rw [hu, List.nil_append] at ht
      have hc := hb c (by rw [← ht]; exact List.mem_cons_self ..)
      rw [stops_cons.1 h] at hc
      cases hc

/-- Around a character that is no white space the parts of a text are trimmed on one side each. -/
theorem trim_append_cons {c : Char} (hc : isSpace c = false) (a b : Text) :
    trim (a ++ c :: b) = a.dropWhile isSpace ++ c :: trimEndWhile isSpace b := by
  have hdrop : (a ++ c :: b).dropWhile isSpace = a.dropWhile isSpace ++ [c] ++ b := by
    rw [List.dropWhile_append]
    split
    · next ha => rw [List.isEmpty_iff.1 ha, dropWhile_of_stops (stops_cons.2 hc)]; rfl
    · simp
  have hend : EndStops isSpace (a.dropWhile isSpace ++ [c]) := by
    rw [endStops_append (by simp)]
    simpa [EndStops] using hc
  rw [trim, trimWhile, hdrop, trimEndWhile_append hend]
  simp

theorem head?_trim_append_cons {c : Char} (hc : isSpace c = false) (a b : Text) :
    (trim (a ++ c :: b)).head? = some ((trim a).head?.getD c) := by
  rw [trim_append_cons hc, trim, trimWhile, head?_trimEndWhile (stops_dropWhile isSpace a)]
  cases a.dropWhile isSpace <;> rfl

theorem getLast?_trim_append_cons {c : Char} (hc : isSpace c = false) (a b : Text) :
    (trim (a ++ c :: b)).getLast? = some ((trim b).getLast?.getD c) := by
  obtain ⟨-, -, -, hend⟩ := exists_trimEndWhile isSpace b
  obtain ⟨w, y, hwy, hw, hy⟩ := exists_run isSpace (trimEndWhile isSpace b)
  rw [trim_append_cons hc, List.getLast?_append_of_ne_nil _ (List.cons_ne_nil c _), List.getLast?_cons,
    ← trim_trimEndWhile b, hwy, trim_append_of_all hw]
  rw [hwy] at hend
  cases y with
  | nil =>
    -- what is left of the end holds no white space, so there is nothing left
    obtain rfl : w = [] := by
      rw [List.append_nil] at hend
      rcases List.eq_nil_or_concat' w with rfl | ⟨w, d, rfl⟩
      · rfl
      · have hd := hend d (by simp)
        rw [hw d (by simp)] at hd
        cases hd
    rfl
  | cons d y =>
    rw [endStops_append (List.cons_ne_nil d y)] at hend
    rw [trim_eq_self_iff.2 ⟨hy, hend⟩, List.getLast?_append_of_ne_nil _ (List.cons_ne_nil d y)]

theorem mem_of_mem_trim {t : Text} {c : Char} (h : c ∈ trim t) : c ∈ t := by
  obtain ⟨a, b, ht, -, -⟩ := exists_trim t
  rw [ht]; simp [h]

namespace Trimmed

theorem stops_isBlank {t : Text} (h : Trimmed t) : Stops isBlank t := fun c hc =>
  Bool.eq_false_iff.2 fun hb => by simpa [isSpace_of_isBlank hb] using h.head c hc

theorem endStops_isBlank {t : Text} (h : Trimmed t) : EndStops isBlank t := fun c hc =>
  Bool.eq_false_iff.2 fun hb => by simpa [isSpace_of_isBlank hb] using h.last c hc

theorem append {a b : Text} (ha : Trimmed a) (hb : Trimmed b) : Trimmed (a ++ b) := by
  rcases a with _ | ⟨c, a⟩
  · simpa using hb
  rcases List.eq_nil_or_concat b with rfl | ⟨b', d, rfl⟩
  · simpa using ha
  exact ⟨by simpa using ha.head, (endStops_append (by simp)).2 hb.last⟩

end Trimmed

end TunnelConf.Text
