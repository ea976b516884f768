import Mathlib.Data.List.Forall2
import TunnelConf.Proofs.Grammar
import TunnelConf.Proofs.Lines

/-!
# Matches line by line

`LineMatch.ofLines` lists the matches of some lines that stand in a text. Main statement:
`scanLines_of_lines`, the matches of a text are those in front of a line, that of the line if it
has one, and those behind it. Lines at another offset have the same matches there (`MovedBy`).
-/

namespace TunnelConf

open Text Line

namespace LineMatch

/-- The matches of some lines, the first one at `start`. -/
def ofLines (start : Nat) (ls : List Line) : List LineMatch :=
  (pick LineForm.ofBody? start ls).map fun p => ⟨p.1, p.2⟩

variable {t : Text} {start : Nat} {ls ms : List Line}

theorem scanLines_eq_ofLines (t : Text) : scanLines t = ofLines 0 (ofVisual t) := by
  simp only [ofLines, pick, scanLines, List.map_filterMap, Option.map_map]
  rfl

theorem ofLines_append (start : Nat) (ls ms : List Line) :
    ofLines start (ls ++ ms) = ofLines start ls ++ ofLines (start + size (textOf ls)) ms := by
  rw [ofLines, pick_append, List.map_append]; rfl

theorem ofLines_cons (start : Nat) (l : Line) (ls : List Line) :
    ofLines start (l :: ls) =
      ((LineForm.ofBody? l.body).map (LineMatch.mk start)).toList ++ ofLines (start + size l.text) ls := by
  rw [ofLines, pick_cons, List.map_append]
  cases LineForm.ofBody? l.body <;> rfl

theorem filterMap_ofLines {α : Type} (f : LineForm → Option α) (start : Nat) (ls : List Line) :
    (ofLines start ls).filterMap (fun m => f m.form) =
      ls.filterMap fun l => (LineForm.ofBody? l.body).bind f := by
  induction ls generalizing start with
  | nil => rfl
  | cons l ls ih =>
    rw [ofLines_cons, List.filterMap_append, ih, List.filterMap_cons]
    cases LineForm.ofBody? l.body with
    | none => rfl
    | some g =>
      cases hg : f g with
      | none => simp [hg]
      | some a => simp [hg]

/-- The matches of a text around one of its lines. -/
theorem scanLines_of_lines {before after : List Line} {l : Line} (h : ofVisual t = before ++ l :: after) :
    scanLines t = ofLines 0 before ++
      ((LineForm.ofBody? l.body).map (LineMatch.mk (size (textOf before)))).toList ++
      ofLines (size (textOf before) + size l.text) after := by
  rw [scanLines_eq_ofLines, h, ofLines_append, ofLines_cons, Nat.zero_add, List.append_assoc]

theorem exists_line_of_mem_ofLines {m : LineMatch} (h : m ∈ ofLines start ls) :
    ∃ before l after, ls = before ++ l :: after ∧ LineForm.ofBody? l.body = some m.form ∧
      m.offset = start + size (textOf before) := by
  induction ls generalizing start with
  | nil => cases h
  | cons l ls ih =>
    rw [ofLines_cons, List.mem_append] at h
    rcases h with h | h
    · obtain ⟨f, hf, rfl⟩ := Option.map_eq_some_iff.1 (Option.mem_toList.1 h)
      exact ⟨[], l, ls, rfl, hf, rfl⟩
    · obtain ⟨before, k, after, rfl, hk, hm⟩ := ih h
      refine ⟨l :: before, k, after, rfl, hk, ?_⟩
      rw [hm, textOf_cons, size_append, Nat.add_assoc]

/-- A line with a match is not empty, so the match starts in front of the end of the lines. -/
theorem offset_lt_of_mem_ofLines {m : LineMatch} (h : m ∈ ofLines start ls) :
    m.offset < start + size (textOf ls) := by
  obtain ⟨before, l, after, rfl, hf, hm⟩ := exists_line_of_mem_ofLines h
  have hne : l.body ≠ [] := by intro hb; rw [hb, LineForm.ofBody?_nil] at hf; cases hf
  have := size_pos_iff.2 hne
  simp only [textOf_append, textOf_cons, Line.text, size_append]
  omega

theorem le_offset_of_mem_ofLines {m : LineMatch} (h : m ∈ ofLines start ls) : start ≤ m.offset := by
  obtain ⟨before, l, after, rfl, -, hm⟩ := exists_line_of_mem_ofLines h
  omega

/-! ### Lines at another offset -/

def shift (n : Nat) (m : LineMatch) : LineMatch := { m with offset := n + m.offset }

theorem ofLines_add (start d : Nat) (ls : List Line) :
    ofLines (start + d) ls = (ofLines start ls).map (shift d) := by
  rw [ofLines, ofLines, pick_add, List.map_map, List.map_map]
  refine List.map_congr_left fun q _ => ?_
  simp only [Function.comp_apply, shift, Nat.add_comm]

/-- Behind an LF a text is scanned as if it were a text of its own. -/
theorem scanLines_append_lf (a b : Text) :
    scanLines (a ++ '\n' :: b) = scanLines a ++ (scanLines b).map (shift (size a + 1)) := by
  rw [scanLines_eq_ofLines, scanLines_eq_ofLines, scanLines_eq_ofLines, ofLines, ofLines, ofLines,
    pick_append_lf LineForm.ofBody? LineForm.ofBody?_nil, List.map_append, List.map_map, List.map_map]
  refine congrArg _ (List.map_congr_left fun q _ => ?_)
  simp only [Function.comp_apply, shift, Nat.add_comm]

/-- `m'` is `m`, moved by `d` bytes. -/
structure MovedBy (d : Int) (m m' : LineMatch) : Prop where
  form : m'.form = m.form
  offset : (m'.offset : Int) = m.offset + d

theorem forall₂_movedBy_ofLines (a b : Nat) (ls : List Line) :
    List.Forall₂ (MovedBy ((b : Int) - a)) (ofLines a ls) (ofLines b ls) := by
  have h : ∀ n, ofLines n ls = (ofLines 0 ls).map (shift n) := by
    intro n
    rw [← ofLines_add, Nat.zero_add]
  rw [h a, h b, List.forall₂_map_left_iff, List.forall₂_map_right_iff, List.forall₂_same]
  intro m _
  refine ⟨rfl, ?_⟩
  show ((b + m.offset : Nat) : Int) = (a + m.offset : Nat) + ((b : Int) - a)
  omega

end LineMatch

end TunnelConf
