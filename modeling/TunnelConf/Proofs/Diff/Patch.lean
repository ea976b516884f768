import TunnelConf.Diff.Unified
import TunnelConf.Proofs.Lines
import TunnelConf.Proofs.Rule.Numeric

/-!
# Applying a diff

`Patch.applied?` reads a unified diff line by line beside the old text. A header has to say where the hunk stands in
either text and how many lines of either it has; what it keeps and deletes has to be the old lines. Numbers are read
back as they were written (`readRange?_renderRange`), the lines of a diff are the rows of its hunks
(`applied?_eq`), and the rows of some changes lead from the one text to the other (`foldlM_step_rows`).
-/

namespace TunnelConf

open Text Line

/-- How far a diff has been applied: the old lines that are left, the number of those that are passed, the new lines
so far, and how many lines of either text the hunk still has. -/
structure Patch where
  rest : List Text
  passed : Nat
  out : List Text
  oldLeft : Nat
  newLeft : Nat
deriving DecidableEq, Repr

namespace Patch

/-- The lines in front of a range of a header, and the number of its lines. An empty range names the line in front of
it, any other one its first line. -/
def readRange? (t : Text) : Option (Nat × Nat) := do
  let (first, count) := (splitFirst? ',' t).getD (t, ['1'])
  let n ← natural? first
  let count ← natural? count
  return (if count = 0 then n else n - 1, count)

def readHeader? (line : Text) : Option ((Nat × Nat) × (Nat × Nat)) :=
  match splitWhere (· == ' ') line with
  | [['@', '@'], '-' :: old, '+' :: new, ['@', '@', '\n']] => do return (← readRange? old, ← readRange? new)
  | _ => none

/-- Goes on to a hunk whose ranges are given, over lines that stay. -/
def enter? (p : Patch) (old new : Nat × Nat) : Option Patch :=
  let skipped := old.1 - p.passed
  if p.oldLeft = 0 ∧ p.newLeft = 0 ∧ p.passed ≤ old.1 ∧ skipped ≤ p.rest.length ∧ new.1 = p.out.length + skipped then
    some ⟨p.rest.drop skipped, old.1, p.out ++ p.rest.take skipped, old.2, new.2⟩
  else none

/-- Takes the next line of a diff. -/
def step (p : Patch) : Text → Option Patch
  | ' ' :: l =>
    match p with
    | ⟨r :: rest, passed, out, m + 1, n + 1⟩ => if r = l then some ⟨rest, passed + 1, out ++ [l], m, n⟩ else none
    | _ => none
  | '-' :: l =>
    match p with
    | ⟨r :: rest, passed, out, m + 1, n⟩ => if r = l then some ⟨rest, passed + 1, out, m, n⟩ else none
    | _ => none
  | '+' :: l =>
    match p with
    | ⟨rest, passed, out, m, n + 1⟩ => some ⟨rest, passed, out ++ [l], m, n⟩
    | _ => none
  | line => (readHeader? line).bind fun (old, new) => p.enter? old new

/-- The new text, if no hunk is left unfinished. -/
def finish? (p : Patch) : Option Text :=
  if p.oldLeft = 0 ∧ p.newLeft = 0 then some (p.out ++ p.rest).flatten else none

/-- The line of a diff behind one whose text has no line ending. -/
def noEnding : Text := "\\ No newline at end of file\n".toList

/-- The lines without those that say that the line in front has no ending, and without its ending. -/
def unmark : List Text → List Text
  | l :: m :: ls => if m = noEnding then l.dropLast :: unmark ls else l :: unmark (m :: ls)
  | ls => ls

def header (path : Text) : Text := "--- a/".toList ++ path ++ "\n+++ b/".toList ++ path ++ ['\n']

/-- Applies a diff of the file at a path to a text. -/
def applied? (path diff old : Text) : Option Text := do
  let body ← diff.dropPrefix? (header path)
  let p ← (unmark (Diff.linesOf body)).foldlM step ⟨Diff.linesOf old, 0, [], 0, 0⟩
  p.finish?

/-! ### Headers -/

section Header
variable {h : Hunk}

theorem isDigit_of_mem_ofNat {n : Nat} {c : Char} (h : c ∈ ofNat n) : isDigit c = true :=
  Nat.isDigit_of_mem_toDigits (by decide) (by decide) h

theorem natural?_ofNat (n : Nat) : natural? (ofNat n) = some n := by
  refine natural?_eq_some_iff.2 ⟨Nat.toDigits_ne_nil, fun c hc => isDigit_of_mem_ofNat hc, ?_⟩
  rw [ofNat, Nat.ofDigitChars_ten_toDigits]

theorem comma_not_mem_ofNat (n : Nat) : ',' ∉ ofNat n := by
  intro h
  have hd := isDigit_of_mem_ofNat h
  revert hd
  decide

/-- A range is read back as the lines in front of it and their number. -/
theorem readRange?_renderRange (range : Nat × Nat) :
    readRange? (Hunk.renderRange range) = some (range.1, range.2 - range.1) := by
  unfold Hunk.renderRange
  dsimp only
  split
  · next hone =>
    rw [readRange?, splitFirst?_eq_none_iff.2 (comma_not_mem_ofNat _), Option.getD_none, hone]
    simp only [natural?_ofNat]
    rfl
  · rw [readRange?, splitFirst?_eq_some_iff.2 ⟨rfl, comma_not_mem_ofNat _⟩, Option.getD_some]
    simp only [natural?_ofNat]
    split <;> simp_all

theorem space_not_mem_renderRange (range : Nat × Nat) : ' ' ∉ Hunk.renderRange range := by
  have hdigits : ∀ n, ' ' ∉ ofNat n := by
    intro n h
    have hd := isDigit_of_mem_ofNat h
    revert hd
    decide
  unfold Hunk.renderRange
  dsimp only
  split
  · exact hdigits _
  · rw [List.mem_append, List.mem_cons, not_or, not_or]
    exact ⟨hdigits _, by decide, hdigits _⟩

/-- The first line of a hunk. -/
def headerRow (h : Hunk) : Text :=
  "@@ -".toList ++ Hunk.renderRange h.oldRange ++ " +".toList ++ Hunk.renderRange h.newRange ++ " @@\n".toList

theorem headerRow_eq (h : Hunk) : headerRow h = ['@', '@'] ++ ' ' :: ('-' :: Hunk.renderRange h.oldRange ++
    ' ' :: ('+' :: Hunk.renderRange h.newRange ++ ' ' :: ['@', '@', '\n'])) := by
  show "@@ -".toList ++ Hunk.renderRange h.oldRange ++ " +".toList ++ Hunk.renderRange h.newRange ++ " @@\n".toList = _
  simp

theorem readHeader?_headerRow (h : Hunk) : readHeader? (headerRow h) =
    some ((h.oldRange.1, h.oldRange.2 - h.oldRange.1), (h.newRange.1, h.newRange.2 - h.newRange.1)) := by
  have hsplit : splitWhere (· == ' ') (headerRow h) =
      [['@', '@'], '-' :: Hunk.renderRange h.oldRange, '+' :: Hunk.renderRange h.newRange, ['@', '@', '\n']] := by
    have hpart : ∀ c range, c ≠ ' ' →
        splitWhere (· == ' ') (c :: Hunk.renderRange range) = [c :: Hunk.renderRange range] := by
      intro c range hc
      refine splitWhere_eq_singleton fun d hd => ?_
      rw [beq_eq_false_iff_ne]
      rintro rfl
      rcases List.mem_cons.1 hd with rfl | hd
      · exact hc rfl
      · exact space_not_mem_renderRange range hd
    rw [headerRow_eq, splitWhere_append_cons rfl, splitWhere_append_cons rfl, splitWhere_append_cons rfl,
      hpart _ _ (by decide), hpart _ _ (by decide)]
    rfl
  rw [readHeader?, hsplit]
  simp only [readRange?_renderRange]
  rfl

theorem step_headerRow (p : Patch) (h : Hunk) : p.step (headerRow h) =
    p.enter? (h.oldRange.1, h.oldRange.2 - h.oldRange.1) (h.newRange.1, h.newRange.2 - h.newRange.1) := by
  have hstep : p.step (headerRow h) = (readHeader? (headerRow h)).bind fun (old, new) => p.enter? old new := rfl
  rw [hstep, readHeader?_headerRow]
  rfl

end Header

/-! ### The lines of a diff -/

/-- A change as one line. -/
def row : Change Text → Text
  | .keep l => ' ' :: l
  | .delete l _ => '-' :: l
  | .insert l _ => '+' :: l

/-- The lines that a change is written as. -/
def written (c : Change Text) : List Text :=
  if Hunk.isEnded (row c) then [row c] else [row c ++ ['\n'], noEnding]

/-- A line of a text, with its ending. -/
def IsRow (l : Text) : Prop := ∃ (b : Text) (e : Ending), IsBody b ∧ b ++ e.text = l ∧ l ≠ []

/-- A line that has an ending and is not empty but for it. -/
def IsEndedRow (l : Text) : Prop := ∃ (b : Text) (e : Ending), IsBody b ∧ b ≠ [] ∧ e ≠ Ending.none ∧ b ++ e.text = l

theorem isRow_of_mem_linesOf {t l : Text} (h : l ∈ Diff.linesOf t) : IsRow l := by
  rw [Diff.linesOf, List.mem_filter, List.mem_map] at h
  obtain ⟨⟨m, hm, rfl⟩, hne⟩ := h
  exact ⟨m.body, m.ending, (proper_ofVisual t).isBody m hm, rfl, by simpa using hne⟩

theorem flatten_filter_ne_nil (ls : List Text) : (ls.filter fun l => !l.isEmpty).flatten = ls.flatten := by
  induction ls with
  | nil => rfl
  | cons l ls ih => cases l <;> simp [ih]

theorem flatten_linesOf (t : Text) : (Diff.linesOf t).flatten = t := by
  rw [Diff.linesOf, flatten_filter_ne_nil, ← List.flatMap_def]
  exact textOf_ofVisual t

/-- Lines with endings are what their text is cut into. -/
theorem linesOf_flatten {ls : List Text} (h : ∀ l ∈ ls, IsEndedRow l) : Diff.linesOf ls.flatten = ls := by
  obtain ⟨ms, hms, hbody⟩ : ∃ ms : List Line, ms.map Line.text = ls ∧
      ∀ m ∈ ms, IsBody m.body ∧ m.body ≠ [] ∧ m.ending ≠ .none := by
    induction ls with
    | nil => exact ⟨[], rfl, by simp⟩
    | cons l ls ih =>
      obtain ⟨⟨b, e, hb, hne, he, rfl⟩, hls⟩ := List.forall_mem_cons.1 h
      obtain ⟨ms, rfl, hms⟩ := ih hls
      exact ⟨⟨b, e⟩ :: ms, rfl, List.forall_mem_cons.2 ⟨⟨hb, hne, he⟩, hms⟩⟩
  have hproper : Proper (ms ++ [⟨[], .none⟩]) := by
    clear hms
    induction ms with
    | nil => exact ⟨isBody_nil, rfl⟩
    | cons m ms ih =>
      obtain ⟨⟨hb, -, he⟩, hms⟩ := List.forall_mem_cons.1 hbody
      refine (ih hms).cons hb fun n hn => ⟨he, ?_⟩
      rintro ⟨-, hnil, hlf⟩
      cases ms with
      | nil =>
        obtain rfl : (⟨[], .none⟩ : Line) = n := by simpa using hn
        cases hlf
      | cons k ms =>
        obtain rfl : k = n := by simpa using hn
        exact (hms k List.mem_cons_self).2.1 hnil
  have htext : textOf (ms ++ [⟨[], .none⟩]) = ls.flatten := by
    rw [textOf_append, ← hms, ← List.flatMap_def]
    simp [textOf, Line.text, Ending.text]
  have hcut := ofVisual_of_proper hproper
  rw [htext] at hcut
  rw [Diff.linesOf, hcut, List.map_append, hms, List.filter_append, List.filter_eq_self.2]
  · simp [Line.text, Ending.text]
  · intro l hl
    obtain ⟨b, e, -, hb, -, rfl⟩ := h l hl
    simp [hb]

/-! ### The lines of a hunk -/

section Rows
variable {c : Change Text} {cs : Script Text} {ls : List Text}

/-- The line of a change. -/
def lineOf : Change Text → Text
  | .keep l => l
  | .delete l _ => l
  | .insert l _ => l

theorem row_eq (c : Change Text) : ∃ mark ∈ [' ', '-', '+'], row c = mark :: lineOf c := by
  cases c with
  | keep l => exact ⟨' ', by simp, rfl⟩
  | delete l _ => exact ⟨'-', by simp, rfl⟩
  | insert l _ => exact ⟨'+', by simp, rfl⟩

theorem isEnded_iff {b : Text} {e : Ending} (hb : IsBody b) (hne : b ++ e.text ≠ []) :
    Hunk.isEnded (b ++ e.text) = true ↔ e ≠ .none := by
  cases e with
  | none =>
    have hlast : ∀ c ∈ b.getLast?, c ≠ '\r' ∧ c ≠ '\n' := fun c hc => hb c (List.mem_of_getLast? hc)
    simp only [Ending.text, List.append_nil] at hne ⊢
    obtain ⟨front, c, rfl⟩ := (List.eq_nil_or_concat' b).resolve_left hne
    simpa [Hunk.isEnded] using (hlast c (by simp)).symm
  | lf => simp [Hunk.isEnded, Ending.text]
  | crlf => simp [Hunk.isEnded, Ending.text]
  | cr => simp [Hunk.isEnded, Ending.text]

theorem isEnded_row (h : IsRow (lineOf c)) : Hunk.isEnded (row c) = Hunk.isEnded (lineOf c) := by
  obtain ⟨mark, -, hrow⟩ := row_eq c
  obtain ⟨-, -, -, -, hne⟩ := h
  rw [hrow, Hunk.isEnded, Hunk.isEnded, List.getLast?_cons_of_ne_nil hne]

theorem renderChange_eq (h : IsRow (lineOf c)) : Hunk.renderChange c = (written c).flatten := by
  have hrow : Hunk.renderChange c =
      row c ++ if Hunk.isEnded (lineOf c) then [] else '\n' :: noEnding := by
    cases c <;> rfl
  rw [hrow, written, isEnded_row h]
  split <;> simp

theorem isEndedRow_of_mem_written (h : IsRow (lineOf c)) : ∀ l ∈ written c, IsEndedRow l := by
  intro l hl
  rw [written, isEnded_row h] at hl
  obtain ⟨mark, hmark, hrow⟩ := row_eq c
  obtain ⟨b, e, hb, heq, hne⟩ := h
  have hbody : IsBody (mark :: b) := by
    refine isBody_cons.2 ⟨?_, hb⟩
    revert hmark
    simp only [List.mem_cons, List.not_mem_nil, or_false]
    rintro (rfl | rfl | rfl) <;> decide
  rw [hrow, ← heq] at hl
  rw [← heq] at hne
  split at hl
  · next hended =>
    obtain rfl := List.mem_singleton.1 hl
    exact ⟨mark :: b, e, hbody, by simp, (isEnded_iff hb hne).1 hended, rfl⟩
  · next hended =>
    obtain rfl : e = .none := by
      by_contra he
      exact hended ((isEnded_iff hb hne).2 he)
    rcases List.mem_pair.1 hl with rfl | rfl
    · exact ⟨mark :: b, .lf, hbody, by simp, by simp, by simp [Ending.text]⟩
    · exact ⟨"\\ No newline at end of file".toList, .lf, by simp [IsBody], by simp, by simp, rfl⟩

/-- The rows of a hunk: its header and its changes. -/
def rows (h : Hunk) : List Text := headerRow h :: h.changes.map row

/-- The lines that a hunk is written as. -/
def hunkLines (h : Hunk) : List Text := headerRow h :: h.changes.flatMap written

theorem isEndedRow_headerRow (h : Hunk) : IsEndedRow (headerRow h) := by
  have hrange : ∀ range, IsBody (Hunk.renderRange range) := by
    intro range
    have hdigits : ∀ n, IsBody (ofNat n) := by
      intro n c hc
      have hd := isDigit_of_mem_ofNat hc
      exact ⟨by rintro rfl; exact absurd hd (by decide), by rintro rfl; exact absurd hd (by decide)⟩
    unfold Hunk.renderRange
    dsimp only
    split
    · exact hdigits _
    · exact isBody_append.2 ⟨hdigits _, isBody_cons.2 ⟨by decide, hdigits _⟩⟩
  refine ⟨['@', '@'] ++ ' ' :: ('-' :: Hunk.renderRange h.oldRange ++
    ' ' :: ('+' :: Hunk.renderRange h.newRange ++ [' ', '@', '@'])), .lf, ?_, by simp, by simp, ?_⟩
  · simp only [isBody_append, isBody_cons, hrange]
    simp [IsBody]
  · rw [headerRow_eq]
    simp [Ending.text]

theorem render_eq {h : Hunk} (hrows : ∀ c ∈ h.changes, IsRow (lineOf c)) : h.render = (hunkLines h).flatten := by
  have hchanges : ∀ cs : Script Text, (∀ c ∈ cs, IsRow (lineOf c)) →
      cs.flatMap Hunk.renderChange = (cs.flatMap written).flatten := by
    intro cs hcs
    induction cs with
    | nil => rfl
    | cons c cs ih =>
      obtain ⟨hc, hcs⟩ := List.forall_mem_cons.1 hcs
      rw [List.flatMap_cons, List.flatMap_cons, List.flatten_append, renderChange_eq hc, ih hcs]
  show headerRow h ++ h.changes.flatMap Hunk.renderChange = _
  rw [hchanges _ hrows, hunkLines, List.flatten_cons]

theorem isEndedRow_of_mem_hunkLines {h : Hunk} (hrows : ∀ c ∈ h.changes, IsRow (lineOf c)) :
    ∀ l ∈ hunkLines h, IsEndedRow l := by
  refine List.forall_mem_cons.2 ⟨isEndedRow_headerRow h, fun l hl => ?_⟩
  obtain ⟨c, hc, hl⟩ := List.mem_flatMap.1 hl
  exact isEndedRow_of_mem_written (hrows c hc) l hl

/-! ### Lines without an ending -/

theorem unmark_cons {l : Text} (h : ls.head? ≠ some noEnding) : unmark (l :: ls) = l :: unmark ls := by
  cases ls with
  | nil => rfl
  | cons m ls =>
    rw [unmark, if_neg]
    rintro rfl
    exact h rfl

theorem unmark_written_append (c : Change Text) (h : ls.head? ≠ some noEnding) :
    unmark (written c ++ ls) = row c :: unmark ls ∧ (written c ++ ls).head? ≠ some noEnding := by
  have hrow : ∀ t, row c ++ t ≠ noEnding := by
    intro t ht
    obtain ⟨mark, hmark, hrow⟩ := row_eq c
    rw [hrow] at ht
    obtain rfl : mark = '\\' := (List.cons.inj ht).1
    simp at hmark
  rw [written]
  split
  · refine ⟨unmark_cons h, ?_⟩
    have := hrow []
    simpa using this
  · refine ⟨?_, by simpa using hrow ['\n']⟩
    rw [List.cons_append, List.cons_append, List.nil_append, unmark, if_pos rfl, List.dropLast_concat]

theorem unmark_flatMap_written (cs : Script Text) (h : ls.head? ≠ some noEnding) :
    unmark (cs.flatMap written ++ ls) = cs.map row ++ unmark ls ∧
      (cs.flatMap written ++ ls).head? ≠ some noEnding := by
  induction cs with
  | nil => exact ⟨rfl, h⟩
  | cons c cs ih =>
    obtain ⟨hunmark, hhead⟩ := unmark_written_append c ih.2
    rw [List.flatMap_cons, List.append_assoc, hunmark, ih.1]
    exact ⟨rfl, hhead⟩

theorem unmark_hunkLines (hs : List Hunk) :
    unmark (hs.flatMap hunkLines) = hs.flatMap rows ∧ (hs.flatMap hunkLines).head? ≠ some noEnding := by
  induction hs with
  | nil => exact ⟨rfl, by simp⟩
  | cons h hs ih =>
    have hhead : ∀ ls, (headerRow h :: ls).head? ≠ some noEnding := by
      intro ls heq
      have := congrArg List.head? (Option.some.inj heq)
      cases this
    obtain ⟨hunmark, hnext⟩ := unmark_flatMap_written h.changes ih.2
    rw [List.flatMap_cons, hunkLines, List.cons_append, unmark_cons hnext, hunmark, ih.1]
    exact ⟨rfl, hhead _⟩

end Rows

theorem applied?_eq {path t : Text} {hs : List Hunk} (hrows : ∀ h ∈ hs, ∀ c ∈ h.changes, IsRow (lineOf c)) :
    applied? path (header path ++ hs.flatMap Hunk.render) t =
      ((hs.flatMap rows).foldlM step ⟨Diff.linesOf t, 0, [], 0, 0⟩).bind finish? := by
  have hbody : hs.flatMap Hunk.render = (hs.flatMap hunkLines).flatten := by
    induction hs with
    | nil => rfl
    | cons h hs ih =>
      obtain ⟨hh, hhs⟩ := List.forall_mem_cons.1 hrows
      rw [List.flatMap_cons, List.flatMap_cons, List.flatten_append, render_eq hh, ih hhs]
  have hended : ∀ l ∈ hs.flatMap hunkLines, IsEndedRow l := by
    intro l hl
    obtain ⟨h, hh, hl⟩ := List.mem_flatMap.1 hl
    exact isEndedRow_of_mem_hunkLines (hrows h hh) l hl
  have hprefix : (header path ++ hs.flatMap Hunk.render).dropPrefix? (header path) =
      some (hs.flatMap Hunk.render) := List.dropPrefix?_eq_some_iff.2 ⟨_, rfl, beq_self_eq_true _⟩
  rw [applied?, hprefix]
  show (((unmark (Diff.linesOf (hs.flatMap Hunk.render))).foldlM step _).bind finish?) = _
  rw [hbody, linesOf_flatten hended, (unmark_hunkLines hs).1]

/-! ### Steps of a hunk -/

/-- Lines that stand in the old text are passed if the hunk has as many of either kind left. -/
theorem foldlM_step_rows (cs : Script Text) (rest : List Text) (passed : Nat) (out : List Text) (m n : Nat) :
    (cs.map row).foldlM step ⟨Script.old cs ++ rest, passed, out, m, n⟩ =
      if (Script.old cs).length ≤ m ∧ (Script.new cs).length ≤ n then
        some ⟨rest, passed + (Script.old cs).length, out ++ Script.new cs,
          m - (Script.old cs).length, n - (Script.new cs).length⟩
      else none := by
  induction cs generalizing passed out m n with
  | nil => simp [pure]
  | cons c cs ih =>
    rw [List.map_cons, List.foldlM_cons]
    cases c with
    | keep l =>
      cases m with
      | zero => simp [row, step]
      | succ m =>
        cases n with
        | zero => simp [row, step]
        | succ n =>
          have hstep : step ⟨l :: Script.old cs ++ rest, passed, out, m + 1, n + 1⟩ (row (.keep l)) =
              some ⟨Script.old cs ++ rest, passed + 1, out ++ [l], m, n⟩ := if_pos rfl
          rw [Script.old_keep_cons, Script.new_keep_cons, hstep]
          refine (ih _ _ _ _).trans ?_
          simp [Nat.add_assoc, Nat.add_comm 1]
    | delete l p =>
      cases m with
      | zero => simp [row, step]
      | succ m =>
        have hstep : step ⟨l :: Script.old cs ++ rest, passed, out, m + 1, n⟩ (row (.delete l p)) =
            some ⟨Script.old cs ++ rest, passed + 1, out, m, n⟩ := if_pos rfl
        rw [Script.old_delete_cons, Script.new_delete_cons, hstep]
        refine (ih _ _ _ _).trans ?_
        simp [Nat.add_assoc, Nat.add_comm 1]
    | insert l p =>
      cases n with
      | zero => simp [row, step]
      | succ n =>
        have hstep : step ⟨Script.old cs ++ rest, passed, out, m, n + 1⟩ (row (.insert l p)) =
            some ⟨Script.old cs ++ rest, passed, out ++ [l], m, n⟩ := rfl
        rw [Script.old_insert_cons, Script.new_insert_cons, hstep]
        refine (ih _ _ _ _).trans ?_
        simp

end Patch

end TunnelConf
