import TunnelConf.Proofs.Text.Parts
import TunnelConf.Session

/-!
# Splices applied to texts

The stretch of a splice that fits a text is one of three parts that the text is put together from
(`Splice.Cuts`, `Fits.exists_cuts`), and applying the splice exchanges this part (`Cuts.apply`). The same cut of
the result undoes it (`Cuts.inverse`). Machine words do not change this while the end of the splice is one
(`wordApply?_eq`). If it is too large for one, the splice may apply all the same, somewhere else. Main statement:
`Splice.exact_iff`.
-/

namespace TunnelConf

open Text

namespace Splice

/-- The stretch of the splice lies inside the text and both its ends are character boundaries. -/
structure Fits (s : Splice) (t : Text) : Prop where
  stop_le : s.stop ≤ size t
  start : isBoundary s.start t = true
  stop : isBoundary s.stop t = true

instance (s : Splice) (t : Text) : Decidable (s.Fits t) :=
  decidable_of_iff (s.stop ≤ size t ∧ isBoundary s.start t = true ∧ isBoundary s.stop t = true)
    ⟨fun ⟨hle, hstart, hstop⟩ => ⟨hle, hstart, hstop⟩, fun h => ⟨h.stop_le, h.start, h.stop⟩⟩

/-- The stretch of the splice is `o`, between the parts `a` and `b` of the text. -/
structure Cuts (s : Splice) (t a o b : Text) : Prop where
  text : t = a ++ o ++ b
  start : size a = s.start
  len : size o = s.len

/-- The splice that puts `o` back where the splice has put its replacement, with a cursor anywhere. -/
def inverse (s : Splice) (o : Text) (cursor : Nat) : Splice := ⟨s.start, size s.replacement, o, cursor⟩

/-- Why a splice does not apply to a text that it does not fit. -/
def refusal (s : Splice) (t : Text) : SpliceError :=
  if size t < s.stop then .outside s.start s.stop (size t) else .insideCharacter s.start s.stop

variable {s : Splice} {t a o b r : Text}

/-! ### The stretch of a splice -/

theorem Cuts.fits (h : s.Cuts t a o b) : s.Fits t := by
  obtain ⟨rfl, hstart, hlen⟩ := h
  have hstop : s.stop = size (a ++ o) := by rw [Splice.stop, size_append, hstart, hlen]
  refine ⟨?_, ?_, hstop ▸ isBoundary_append (a ++ o) b⟩
  · rw [hstop, size_append (a ++ o)]
    exact Nat.le_add_right _ _
  · rw [← hstart, List.append_assoc]
    exact isBoundary_append a (o ++ b)

theorem Fits.exists_cuts (h : s.Fits t) : ∃ a o b, s.Cuts t a o b := by
  obtain ⟨a, x, rfl, ha⟩ := isBoundary_iff.1 h.start
  obtain ⟨c, b, hcb, hc⟩ := isBoundary_iff.1 h.stop
  rw [Splice.stop] at hc
  rcases List.append_eq_append_iff.1 hcb with ⟨o, rfl, rfl⟩ | ⟨o, rfl, rfl⟩
  · rw [size_append] at hc
    exact ⟨a, o, b, by simp, ha, by omega⟩
  · -- the end is not behind the start, so nothing lies between them
    rw [size_append] at ha
    exact ⟨c ++ o, [], x, by simp, by rw [size_append, ha], by rw [size_nil]; omega⟩

theorem original?_eq_some_iff : s.original? t = some o ↔ ∃ a b, s.Cuts t a o b := by
  rw [original?, slice?_eq_some_iff]
  constructor
  · rintro ⟨a, b, ht, hstart, hlen⟩
    exact ⟨a, b, ht, hstart, hlen⟩
  · rintro ⟨a, b, h⟩
    exact ⟨a, b, h.text, h.start, h.len⟩

theorem isSome_original?_iff : (s.original? t).isSome = true ↔ s.Fits t := by
  rw [Option.isSome_iff_exists]
  constructor
  · rintro ⟨o, h⟩
    obtain ⟨a, b, hcuts⟩ := original?_eq_some_iff.1 h
    exact hcuts.fits
  · intro h
    obtain ⟨a, o, b, hcuts⟩ := h.exists_cuts
    exact ⟨o, original?_eq_some_iff.2 ⟨a, b, hcuts⟩⟩

/-! ### What applying yields -/

theorem Cuts.apply (h : s.Cuts t a o b) : s.apply t = .ok (a ++ s.replacement ++ b) := by
  have hle := h.fits.stop_le
  obtain ⟨rfl, hstart, hlen⟩ := h
  rw [Splice.apply, if_neg (Nat.not_lt.2 hle), ← hstart, ← hlen, List.append_assoc]
  simp only [cut?_append]

theorem apply_of_not_fits (h : ¬ s.Fits t) : s.apply t = .error (s.refusal t) := by
  rw [apply, refusal]
  split
  · rfl
  · split
    · rfl
    · next a rest hstart =>
      split
      · rfl
      · next o b hlen =>
        obtain ⟨rfl, ha⟩ := cut?_eq_some_iff.1 hstart
        obtain ⟨rfl, ho⟩ := cut?_eq_some_iff.1 hlen
        exact absurd (Cuts.fits ⟨(List.append_assoc a o b).symm, ha, ho⟩) h

theorem apply_eq_ok_iff : s.apply t = .ok r ↔ ∃ a o b, s.Cuts t a o b ∧ r = a ++ s.replacement ++ b := by
  constructor
  · intro h
    by_cases hfits : s.Fits t
    · obtain ⟨a, o, b, hcuts⟩ := hfits.exists_cuts
      rw [hcuts.apply] at h
      exact ⟨a, o, b, hcuts, (Except.ok.inj h).symm⟩
    · rw [apply_of_not_fits hfits] at h
      cases h
  · rintro ⟨a, o, b, hcuts, rfl⟩
    exact hcuts.apply

theorem Cuts.inverse (h : s.Cuts t a o b) (cursor : Nat) :
    (s.inverse o cursor).Cuts (a ++ s.replacement ++ b) a s.replacement b := ⟨rfl, h.start, rfl⟩

theorem Cuts.cut?_cursor (h : s.Cuts t a o b) (hs : s.cursor = s.start + size s.replacement) :
    cut? s.cursor (a ++ s.replacement ++ b) = some (a ++ s.replacement, b) := by
  rw [hs, ← h.start, ← size_append]
  exact cut?_append (a ++ s.replacement) b

/-! ### Machine words -/

variable {checked : Bool} {x y : Nat}

/-- The numbers are words, and the texts have no more bytes than half of all words can count. -/
structure InMemory (s : Splice) (t : Text) : Prop where
  start_lt : s.start < wordCount
  len_lt : s.len < wordCount
  text_lt : 2 * size t < wordCount
  replacement_lt : 2 * size s.replacement < wordCount

theorem wordSum?_of_lt (h : x + y < wordCount) : wordSum? checked x y = some (x + y) := if_pos h

theorem wordSum?_checked (h : wordCount ≤ x + y) : wordSum? true x y = none := by
  rw [wordSum?, if_neg (Nat.not_lt.2 h), if_pos rfl]

theorem wordSum?_unchecked (hx : x < wordCount) (hy : y < wordCount) (h : wordCount ≤ x + y) :
    wordSum? false x y = some (x + y - wordCount) := by
  have hmod : (x + y) % wordCount = x + y - wordCount := by
    rw [Nat.mod_eq_sub_mod h, Nat.mod_eq_of_lt (by omega)]
  rw [wordSum?, if_neg (Nat.not_lt.2 h), if_neg (by decide), hmod]

theorem cursor_of_wordReplace? (h : wordReplace? checked x y s.replacement = some s)
    (hlt : s.start + size s.replacement < wordCount) : s.cursor = s.start + size s.replacement := by
  obtain ⟨start, len, replacement, cursor⟩ := s
  obtain ⟨c, hsum, hs⟩ := Option.map_eq_some_iff.1 h
  cases hs
  rw [wordSum?_of_lt hlt] at hsum
  exact (Option.some.inj hsum).symm

theorem wordOriginal?_eq (h : s.stop < wordCount) : s.wordOriginal? checked t = some (s.original? t) := by
  have hle : ¬ s.start + s.len < s.start := Nat.not_lt.2 (Nat.le_add_right _ _)
  rw [wordOriginal?, wordSum?_of_lt h, Option.map_some, if_neg hle, Nat.add_sub_cancel_left, original?]

theorem wordApply?_eq (h : s.stop < wordCount) : s.wordApply? checked t = some (s.apply t) := by
  have hsum : wordSum? checked s.start s.len = some s.stop := wordSum?_of_lt h
  rw [wordApply?, hsum, Option.map_some, Option.some_inj]
  by_cases hfits : s.Fits t
  · obtain ⟨a, o, b, hcuts⟩ := hfits.exists_cuts
    have hstart : cut? s.start t = some (a, o ++ b) := by
      rw [hcuts.text, ← hcuts.start, List.append_assoc, cut?_append]
    have hstop : cut? s.stop t = some (a ++ o, b) := by
      rw [hcuts.text, stop, ← hcuts.start, ← hcuts.len, ← size_append, cut?_append]
    rw [if_neg (Nat.not_lt.2 hfits.stop_le), hstart, hstop, hcuts.apply]
  · rw [apply_of_not_fits hfits, refusal]
    split
    · rfl
    · next hle =>
      split
      · next hstart hstop =>
        exact absurd ⟨Nat.not_lt.1 hle, by rw [isBoundary, hstart]; rfl, by rw [isBoundary, hstop]; rfl⟩ hfits
      · rfl

/-! ### An end that is no word -/

theorem not_fits_of_le (hm : s.InMemory t) (h : wordCount ≤ s.stop) : ¬ s.Fits t := by
  intro hfits
  have := hfits.stop_le
  have := hm.text_lt
  omega

/-- The lower bits of the end lie in front of the start. -/
theorem wordOriginal?_of_le (hm : s.InMemory t) (h : wordCount ≤ s.stop) :
    s.wordOriginal? false t = some none := by
  have hlt : s.start + s.len - wordCount < s.start := by
    have := hm.len_lt
    rw [stop] at h
    omega
  rw [wordOriginal?, wordSum?_unchecked hm.start_lt hm.len_lt h, Option.map_some, if_pos hlt]

theorem wordApply?_of_le (hm : s.InMemory t) (h : wordCount ≤ s.stop) :
    (∃ r, s.wordApply? false t = some (.ok r)) ∧ isBoundary s.start t = true ∧
        isBoundary (s.stop - wordCount) t = true ∨
      (∃ e, s.wordApply? false t = some (.error e)) ∧
        ¬ (isBoundary s.start t = true ∧ isBoundary (s.stop - wordCount) t = true) := by
  have hsum : wordSum? false s.start s.len = some (s.stop - wordCount) :=
    wordSum?_unchecked hm.start_lt hm.len_lt h
  rw [wordApply?, hsum, Option.map_some]
  split
  · next hlt =>
    refine .inr ⟨⟨_, rfl⟩, fun hboth => ?_⟩
    obtain ⟨a, b, rfl, ha⟩ := isBoundary_iff.1 hboth.2
    rw [size_append] at hlt
    omega
  · split
    · next hstart hstop =>
      exact .inl ⟨⟨_, rfl⟩, by rw [isBoundary, hstart]; rfl, by rw [isBoundary, hstop]; rfl⟩
    · next hnone =>
      refine .inr ⟨⟨_, rfl⟩, fun hboth => ?_⟩
      obtain ⟨p, hp⟩ := Option.isSome_iff_exists.1 hboth.1
      obtain ⟨q, hq⟩ := Option.isSome_iff_exists.1 hboth.2
      exact hnone p.1 p.2 q.1 q.2 hp hq

/-! ### Buffers -/

theorem run_edit (s : Splice) (t : Text) : (s.edit checked).run.run t =
    (s.wordApply? checked t).map fun r =>
      match r with
      | .ok r => (.ok (), r)
      | .error e => (.error (.splice e), t) := by
  have hget : (s.edit checked).run.run t = (do
      match ← (s.wordApply? checked t : StateT Text Option _) with
      | .ok r => set r
      | .error e => throw (.splice e) : ExceptT EditError (StateT Text Option) Unit).run.run t := rfl
  rw [hget]
  cases s.wordApply? checked t with
  | none => rfl
  | some r =>
    cases r with
    | ok r => rfl
    | error e => rfl

/-! ### Main statement -/

/-- A splice applies to a text exactly if it fits it, which is also when there is a text that it replaces. A text
that it does not fit is refused as invalid, and a buffer keeps it. Else the result has the replacement in the place
of what was there, a cursor that the splice was made with stands right behind it, and the inverse splice gives the
text back. -/
structure Exact (checked : Bool) (s : Splice) (t : Text) : Prop where
  applies : (∃ r, s.wordApply? checked t = some (.ok r)) ↔ s.Fits t
  original : (∃ o, s.wordOriginal? checked t = some (some o)) ↔ s.Fits t
  absent : ¬ s.Fits t → s.wordOriginal? checked t = some none
  refused : ¬ s.Fits t → ∃ e, s.wordApply? checked t = some (.error e) ∧
    (EditError.splice e).kind = .validation ∧ (s.edit checked).run.run t = some (.error (.splice e), t)
  replaced : ∀ o r, s.wordOriginal? checked t = some (some o) → s.wordApply? checked t = some (.ok r) →
    (s.edit checked).run.run t = some (.ok (), r) ∧ ∃ a b, s.Cuts t a o b ∧ r = a ++ s.replacement ++ b ∧
      (∀ start stop, wordReplace? checked start stop s.replacement = some s →
        isBoundary s.cursor r = true ∧ cut? s.cursor r = some (a ++ s.replacement, b)) ∧
      ∀ cursor, (s.inverse o cursor).wordOriginal? checked r = some (some s.replacement) ∧
        (s.inverse o cursor).wordApply? checked r = some (.ok t)

theorem exact_of_lt (hm : s.InMemory t) (h : s.stop < wordCount) : s.Exact checked t := by
  have happly : s.wordApply? checked t = some (s.apply t) := wordApply?_eq h
  have horiginal : s.wordOriginal? checked t = some (s.original? t) := wordOriginal?_eq h
  constructor
  case applies =>
    simp only [happly, Option.some_inj]
    constructor
    · rintro ⟨r, hr⟩
      obtain ⟨a, o, b, hcuts, -⟩ := apply_eq_ok_iff.1 hr
      exact hcuts.fits
    · intro hfits
      obtain ⟨a, o, b, hcuts⟩ := hfits.exists_cuts
      exact ⟨_, hcuts.apply⟩
  case original =>
    rw [← isSome_original?_iff, Option.isSome_iff_exists]
    simp only [horiginal, Option.some_inj]
  case absent =>
    intro hfits
    rw [← isSome_original?_iff, Option.not_isSome_iff_eq_none] at hfits
    rw [horiginal, hfits]
  case refused =>
    intro hfits
    have hrefused := apply_of_not_fits hfits
    exact ⟨s.refusal t, by rw [happly, hrefused], rfl, by rw [run_edit, happly, hrefused]; rfl⟩
  case replaced =>
    intro o r ho hr
    rw [horiginal, Option.some_inj] at ho
    rw [happly, Option.some_inj] at hr
    obtain ⟨a, b, hcuts⟩ := original?_eq_some_iff.1 ho
    obtain rfl := Except.ok.inj (hcuts.apply.symm.trans hr)
    have hend : s.start + size s.replacement < wordCount := by
      have hstart := hcuts.start
      have htext := hm.text_lt
      have hreplacement := hm.replacement_lt
      rw [hcuts.text, size_append, size_append] at htext
      omega
    refine ⟨by rw [run_edit, happly, hr]; rfl, a, b, hcuts, rfl, fun start stop hs => ?_, fun cursor => ⟨?_, ?_⟩⟩
    · have hcut := hcuts.cut?_cursor (cursor_of_wordReplace? hs hend)
      exact ⟨by rw [isBoundary, hcut]; rfl, hcut⟩
    · have hback : (s.inverse o cursor).stop < wordCount := hend
      rw [wordOriginal?_eq hback]
      exact congrArg some (original?_eq_some_iff.2 ⟨a, b, hcuts.inverse cursor⟩)
    · have hback : (s.inverse o cursor).stop < wordCount := hend
      rw [wordApply?_eq hback, (hcuts.inverse cursor).apply, hcuts.text]
      rfl

/-- A splice does what is said of it if its end is a word. If it is not, a program that checks its sums stops, and in
one that does not the splice is still refused unless its start and the lower bits of its end are boundaries. -/
theorem exact_iff (hm : s.InMemory t) : s.Exact checked t ↔
    s.stop < wordCount ∨
      checked = false ∧ ¬ (isBoundary s.start t = true ∧ isBoundary (s.stop - wordCount) t = true) := by
  by_cases h : s.stop < wordCount
  · exact ⟨fun _ => .inl h, fun _ => exact_of_lt hm h⟩
  have hle : wordCount ≤ s.stop := Nat.not_lt.1 h
  have hfits := not_fits_of_le hm hle
  cases checked with
  | true =>
    refine ⟨fun hexact => ?_, fun hor => ?_⟩
    · obtain ⟨e, he, -⟩ := hexact.refused hfits
      rw [wordApply?, wordSum?_checked hle] at he
      cases he
    · rcases hor with hlt | ⟨hchecked, -⟩
      · exact absurd hlt h
      · cases hchecked
  | false =>
    have horiginal := wordOriginal?_of_le hm hle
    rcases wordApply?_of_le hm hle with ⟨⟨r, hr⟩, hboth⟩ | ⟨⟨e, he⟩, hnot⟩
    · refine ⟨fun hexact => absurd (hexact.applies.1 ⟨r, hr⟩) hfits, fun hor => ?_⟩
      rcases hor with hlt | ⟨-, hnot⟩
      · exact absurd hlt h
      · exact absurd hboth hnot
    · refine ⟨fun _ => .inr ⟨rfl, hnot⟩, fun _ => ?_⟩
      constructor
      case applies =>
        refine ⟨?_, fun hf => absurd hf hfits⟩
        rintro ⟨r, hr⟩
        rw [he] at hr
        cases hr
      case original =>
        refine ⟨?_, fun hf => absurd hf hfits⟩
        rintro ⟨o, ho⟩
        rw [horiginal] at ho
        cases ho
      case absent => exact fun _ => horiginal
      case refused => exact fun _ => ⟨e, he, rfl, by rw [run_edit, he]; rfl⟩
      case replaced =>
        intro o r ho
        rw [horiginal] at ho
        cases ho

/-- Two bytes of an accented letter are replaced; to begin between them is refused. -/
theorem exact_accented :
    (replace 1 3 "üx".toList).InMemory "aéb".toList ∧ (replace 1 3 "üx".toList).stop < wordCount ∧
    (∃ r, (replace 1 3 "üx".toList).wordApply? true "aéb".toList = some (.ok r)) ∧
    ((replace 1 3 "üx".toList).inverse "é".toList 0).wordApply? true "aüxb".toList = some (.ok "aéb".toList) ∧
    ¬ ∃ r, (replace 2 3 "üx".toList).wordApply? true "aéb".toList = some (.ok r) := by
  have hm : (replace 1 3 "üx".toList).InMemory "aéb".toList := ⟨by decide, by decide, by decide, by decide⟩
  have hm' : (replace 2 3 "üx".toList).InMemory "aéb".toList := ⟨by decide, by decide, by decide, by decide⟩
  have hexact : (replace 1 3 "üx".toList).Exact true "aéb".toList := (exact_iff hm).2 (.inl (by decide))
  have hexact' : (replace 2 3 "üx".toList).Exact true "aéb".toList := (exact_iff hm').2 (.inl (by decide))
  have happly : (replace 1 3 "üx".toList).wordApply? true "aéb".toList = some (.ok "aüxb".toList) := by decide
  obtain ⟨-, a, b, -, -, -, hback⟩ := hexact.replaced "é".toList _ (by decide) happly
  exact ⟨hm, by decide, hexact.applies.2 (by decide), (hback 0).2, mt hexact'.applies.1 (by decide)⟩

/-- An end that starts again from zero: the text goes up to its third byte and then on from its second one. -/
theorem not_exact_restarted :
    (⟨3, wordCount - 1, ['x'], 4⟩ : Splice).wordApply? false "abcd".toList = some (.ok "abcxcd".toList) ∧
    (⟨3, wordCount - 1, ['x'], 4⟩ : Splice).wordOriginal? false "abcd".toList = some none ∧
    (⟨3, wordCount - 1, ['x'], 4⟩ : Splice).wordApply? true "abcd".toList = none ∧
    ∀ checked, ¬ (⟨3, wordCount - 1, ['x'], 4⟩ : Splice).Exact checked "abcd".toList := by
  have happly : (⟨3, wordCount - 1, ['x'], 4⟩ : Splice).wordApply? false "abcd".toList =
      some (.ok "abcxcd".toList) := by decide
  have hstopped : (⟨3, wordCount - 1, ['x'], 4⟩ : Splice).wordApply? true "abcd".toList = none := by decide
  have hfits : ¬ (⟨3, wordCount - 1, ['x'], 4⟩ : Splice).Fits "abcd".toList := by decide
  refine ⟨happly, by decide, hstopped, fun checked hexact => ?_⟩
  cases checked with
  | false => exact hfits (hexact.applies.1 ⟨_, happly⟩)
  | true =>
    obtain ⟨e, he, -⟩ := hexact.refused hfits
    rw [hstopped] at he
    cases he

end Splice

end TunnelConf
