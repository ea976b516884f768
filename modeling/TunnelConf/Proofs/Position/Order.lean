import Mathlib.Data.Prod.Lex
import TunnelConf.Proofs.Position.Search
import TunnelConf.Proofs.Scan.Findings

/-!
# The order of positions

Positions are ordered by line and then by column. Further on in a text the position is a later one
(`Position.strictMonoOn_ofOffset`), so findings that are listed from left to right are listed by position as well.
Main statement: `Position.ofOffset_exact`.
-/

namespace TunnelConf

open Text

namespace Position

/-- A position for comparisons: the line comes first. -/
def place (p : Position) : ℕ ×ₗ ℕ := toLex (p.line, p.column)

theorem place_lt_iff {p q : Position} :
    p.place < q.place ↔ p.line < q.line ∨ p.line = q.line ∧ p.column < q.column := Prod.Lex.toLex_lt_toLex

variable {t : Text}

theorem lastLine_append_of_not_mem (a : Text) {b : Text} (h : '\n' ∉ b) :
    (a ++ b).lastLine = a.lastLine ++ b := by
  induction b using List.reverseRecOn with
  | nil => rw [List.append_nil, List.append_nil]
  | append_singleton b c ih =>
    rw [List.mem_append, not_or, List.mem_singleton] at h
    rw [← List.append_assoc, lastLine_concat_of_ne (Ne.symm h.2), ih h.1, List.append_assoc]

/-- Behind some more characters the position is a later one: on a later line if one of them is an LF, else in a
later column. -/
theorem place_lt_of_append (a c : Text) {b : Text} (hb : b ≠ []) :
    (ofOffset (a ++ (b ++ c)) (size a)).place < (ofOffset (a ++ (b ++ c)) (size (a ++ b))).place := by
  have hnext : ofOffset (a ++ (b ++ c)) (size (a ++ b)) =
      ⟨(a ++ b).count '\n' + 1, (a ++ b).lastLine.length + 1⟩ := by
    rw [← List.append_assoc, ofOffset_append]
  rw [ofOffset_append, hnext, place_lt_iff, List.count_append]
  by_cases hlf : '\n' ∈ b
  · left
    have := List.count_pos_iff.2 hlf
    simp only
    omega
  · right
    have := List.length_pos_of_ne_nil hb
    simp only [List.count_eq_zero.2 hlf, lastLine_append_of_not_mem a hlf, List.length_append, Nat.add_zero, true_and]
    omega

theorem strictMonoOn_ofOffset (t : Text) :
    StrictMonoOn (fun byte => (ofOffset t byte).place) {byte | isBoundary byte t = true} := by
  rintro m hm n hn hlt
  obtain ⟨a, x, rfl, rfl⟩ := isBoundary_iff.1 hm
  obtain ⟨b, y, hby, rfl⟩ := isBoundary_iff.1 hn
  rcases List.append_eq_append_iff.1 hby with ⟨z, rfl, rfl⟩ | ⟨z, rfl, rfl⟩
  · refine place_lt_of_append a y ?_
    rintro rfl
    simp at hlt
  · rw [size_append] at hlt
    omega

theorem isBoundary_of_mem_findings {grade : Finding → Option Severity} {l : Located} (h : l ∈ findings grade t) :
    isBoundary l.span.start t = true ∧ l.position = ofOffset t l.span.start := by
  obtain ⟨a, ha, f, -, rfl⟩ := mem_findings.1 h
  obtain ⟨before, u, after, ht, hstart, -⟩ := Scan.exists_isBody_of_mem ha
  refine ⟨?_, rfl⟩
  show isBoundary a.span.start t = true
  rw [hstart, ht]
  exact isBoundary_append before (u ++ after)

theorem pairwise_place_findings (grade : Finding → Option Severity) (t : Text) :
    (findings grade t).Pairwise fun l l' => l.position.place ≤ l'.position.place := by
  refine (pairwise_findings grade t).imp_of_mem fun {l l'} hl hl' hle => ?_
  obtain ⟨hb, hp⟩ := isBoundary_of_mem_findings hl
  obtain ⟨hb', hp'⟩ := isBoundary_of_mem_findings hl'
  rw [hp, hp']
  exact (strictMonoOn_ofOffset t).monotoneOn hb hb' hle

/-! ### Main statement -/

/-- The position of a character boundary counts the LFs in front of it and the characters behind the last of them,
and no two boundaries have one position. Any offset at all can be looked up and is on one of the lines. So a report
lists its findings by line and column. -/
theorem ofOffset_exact (t : Text) :
    (∀ byte before after, cut? byte t = some (before, after) →
      ofOffset t byte = ⟨1 + before.count '\n', 1 + before.lastLine.length⟩) ∧
    StrictMonoOn (fun byte => (ofOffset t byte).place) {byte | isBoundary byte t = true} ∧
    Set.InjOn (ofOffset t) {byte | isBoundary byte t = true} ∧
    (∀ byte, lookup? t byte = some (ofOffset t byte) ∧
      1 ≤ (ofOffset t byte).line ∧ (ofOffset t byte).line ≤ (lineStarts t).length) ∧
    ∀ path r, (CheckReport.ofText path t r).located.Pairwise (fun l l' => l.position.place ≤ l'.position.place) ∧
      ∀ grade, ((CheckReport.ofText path t r).regrade grade).located.Pairwise
        fun l l' => l.position.place ≤ l'.position.place := by
  refine ⟨fun byte before after h => ?_, strictMonoOn_ofOffset t, ?_, fun byte => ?_,
    fun path r => ⟨?_, fun grade => ?_⟩⟩
  · obtain ⟨rfl, rfl⟩ := cut?_eq_some_iff.1 h
    rw [ofOffset_append, Nat.add_comm 1, Nat.add_comm 1]
  · intro m hm n hn heq
    exact (strictMonoOn_ofOffset t).injOn hm hn (congrArg place heq)
  · exact ⟨lookup?_eq t byte, one_le_line t byte, line_le_length t byte⟩
  · rw [CheckReport.located_ofText]
    exact pairwise_place_findings _ t
  · rw [CheckReport.located_regrade]
    exact pairwise_place_findings grade t

end Position

end TunnelConf
