import Mathlib.Data.List.DropRight
import TunnelConf.Position
import TunnelConf.Proofs.Text.Parts

/-!
# The position of an offset

Main statement: `Position.ofOffset_append`. The line of an offset is counted by the LFs before it and its
column by the characters behind the last of them, whatever follows the offset.
-/

namespace TunnelConf

open Text

/-- What stands behind the last LF. -/
def Text.lastLine (t : Text) : Text := t.rtakeWhile (· != '\n')

theorem Text.lastLine_concat_lf (t : Text) : lastLine (t ++ ['\n']) = [] := by
  rw [lastLine, List.rtakeWhile_concat, if_neg (by decide)]

theorem Text.lastLine_concat_of_ne {c : Char} (hc : c ≠ '\n') (t : Text) :
    lastLine (t ++ [c]) = lastLine t ++ [c] := by
  rw [lastLine, List.rtakeWhile_concat, if_pos (by simpa using hc), lastLine]

namespace Position

variable {n offset : Nat} {t : Text}

/-! ### Where lines start -/

theorem startsAfter_append (offset : Nat) (a b : Text) :
    startsAfter offset (a ++ b) = startsAfter offset a ++ startsAfter (offset + size a) b := by
  induction a generalizing offset with
  | nil => rfl
  | cons c a ih =>
    simp only [List.cons_append, startsAfter, ih, size_cons, Nat.add_assoc]
    split <;> rfl

theorem length_startsAfter (offset : Nat) (t : Text) : (startsAfter offset t).length = t.count '\n' := by
  induction t generalizing offset with
  | nil => rfl
  | cons c t ih =>
    rw [startsAfter, List.count_cons]
    by_cases hc : c = '\n'
    · simp [hc, ih]
    · simp [hc, ih]

theorem startsAfter_eq_nil (h : '\n' ∉ t) : startsAfter offset t = [] := by
  rw [← List.length_eq_zero_iff, length_startsAfter, List.count_eq_zero]
  exact h

theorem bounds_of_mem_startsAfter (h : n ∈ startsAfter offset t) : offset < n ∧ n ≤ offset + size t := by
  induction t generalizing offset with
  | nil => cases h
  | cons c t ih =>
    have hc := Char.utf8Size_pos c
    have hrest : n ∈ startsAfter (offset + c.utf8Size) t → offset < n ∧ n ≤ offset + size (c :: t) := by
      intro hn
      obtain ⟨hlt, hle⟩ := ih hn
      rw [size_cons]
      omega
    rw [startsAfter] at h
    split at h
    · rcases List.mem_cons.1 h with rfl | h
      · rw [size_cons]; omega
      · exact hrest h
    · exact hrest h

/-- Up to the end of a part of a text lines start where they start in the part. -/
theorem filter_lineStarts_append (a b : Text) : (lineStarts (a ++ b)).filter (· ≤ size a) = lineStarts a := by
  have hpassed : (startsAfter 0 a).filter (· ≤ size a) = startsAfter 0 a :=
    List.filter_eq_self.2 fun n hn => by
      have := bounds_of_mem_startsAfter hn
      exact decide_eq_true (by omega)
  have hahead : (startsAfter (0 + size a) b).filter (· ≤ size a) = [] :=
    List.filter_eq_nil_iff.2 fun n hn => by
      have := bounds_of_mem_startsAfter hn
      simp only [decide_eq_true_eq]
      omega
  rw [lineStarts, startsAfter_append, List.filter_cons_of_pos (by simp), List.filter_append, hpassed, hahead,
    List.append_nil, lineStarts]

/-! ### The last line -/

theorem not_mem_lastLine (t : Text) : '\n' ∉ t.lastLine := fun h => by
  have := List.mem_rtakeWhile_imp h
  cases this

/-- The last line is all of the text or stands behind an LF. -/
theorem exists_append_lastLine (t : Text) :
    ∃ a, t = a ++ t.lastLine ∧ (a = [] ∨ ∃ b, a = b ++ ['\n']) := by
  refine ⟨t.rdropWhile (· != '\n'), List.rdropWhile_append_rtakeWhile.symm, ?_⟩
  rcases List.eq_nil_or_concat' (t.rdropWhile (· != '\n')) with ha | ⟨b, c, ha⟩
  · exact .inl ha
  · have hc := List.rdropWhile_last_not (· != '\n') t (by simp [ha])
    obtain rfl : c = '\n' := by simpa [ha] using hc
    exact .inr ⟨b, ha⟩

/-- The last line starts at the last offset at which a line starts. -/
theorem getLast?_lineStarts {a b : Text} (ha : a = [] ∨ ∃ x, a = x ++ ['\n']) (hb : '\n' ∉ b) :
    (lineStarts (a ++ b)).getLast? = some (size a) := by
  rw [lineStarts, startsAfter_append, startsAfter_eq_nil hb, List.append_nil]
  rcases ha with rfl | ⟨x, rfl⟩
  · rfl
  · have hstart : startsAfter (0 + size x) ['\n'] = [size (x ++ ['\n'])] := by
      rw [size_append, Nat.zero_add]; rfl
    rw [startsAfter_append, hstart, ← List.cons_append, List.getLast?_concat]

/-! ### Main statement -/

theorem ofOffset_append (a b : Text) :
    ofOffset (a ++ b) (size a) = ⟨a.count '\n' + 1, a.lastLine.length + 1⟩ := by
  obtain ⟨x, hx, hlf⟩ := exists_append_lastLine a
  have hlast : (lineStarts a).getLast? = some (size x) := by
    conv_lhs => rw [hx]
    exact getLast?_lineStarts hlf (not_mem_lastLine a)
  have hlen : (lineStarts a).length = a.count '\n' + 1 := by
    rw [lineStarts, List.length_cons, length_startsAfter]
  have hmin : min (size a) (size (a ++ b)) - size x = size a.lastLine := by
    have hsize : size a = size x + size a.lastLine := by
      conv_lhs => rw [hx]
      rw [size_append]
    rw [size_append]
    omega
  have hslice : slice? (size x) (size a.lastLine) (a ++ b) = some a.lastLine :=
    slice?_eq_some_iff.2 ⟨x, b, by rw [← hx], rfl, rfl⟩
  rw [ofOffset, filter_lineStarts_append, hlast, hlen, Option.getD_some, hmin, hslice]
  rfl

end Position

end TunnelConf
