import TunnelConf.Edit.File
import TunnelConf.Proofs.Scan.Layout

/-!
# What is found in a text

A scan annotates more than it objects to. What it objects to depends on the text and on the severities that
are set (`findings`), and a report of the text is about just that (`located_regrade`, `hasErrors_regrade`).
-/

namespace TunnelConf

open Text

/-- The findings of a text in order, each with its position and with the severity that is set for it, or its
own where none is set. -/
def findings (grade : Finding → Option Severity) (t : Text) : List Located :=
  ((scanLines t).flatMap Scan.annotate).filterMap fun a =>
    a.finding.map fun f => ⟨.ofOffset t a.span.start, a.span, (grade f).getD a.severity, f⟩

theorem mem_findings {grade : Finding → Option Severity} {t : Text} {l : Located} :
    l ∈ findings grade t ↔ ∃ a ∈ (scanLines t).flatMap Scan.annotate, ∃ f, a.finding = some f ∧
      l = ⟨.ofOffset t a.span.start, a.span, (grade f).getD a.severity, f⟩ := by
  simp only [findings, List.mem_filterMap, Option.map_eq_some_iff, eq_comm (a := l)]

/-- Findings are listed from left to right. -/
theorem pairwise_findings (grade : Finding → Option Severity) (t : Text) :
    (findings grade t).Pairwise fun l l' => l.span.start ≤ l'.span.start := by
  rw [findings, List.pairwise_filterMap]
  refine (Scan.pairwise_annotations t).imp ?_
  intro a b hab l hl l' hl'
  obtain ⟨f, -, rfl⟩ := Option.map_eq_some_iff.1 hl
  obtain ⟨f', -, rfl⟩ := Option.map_eq_some_iff.1 hl'
  exact hab.start_le

/-- A scan of a text, kept with it. -/
def CheckReport.ofText (path t : Text) (r : RandomStream) : CheckReport := ⟨path, t, (Scan.ofText t r).1⟩

namespace Scan

/-- The severity of an annotation once it has been graded. -/
theorem severity_regrade (grade : Finding → Option Severity) (a : Annotation) :
    (match a.finding.bind grade with
      | some severity => { a with severity }
      | none => a) = { a with severity := (a.finding.bind grade).getD a.severity } := by
  cases a.finding.bind grade <;> rfl

theorem annotations_regrade (grade : Finding → Option Severity) (s : Scan) :
    (s.regrade grade).annotations =
      s.annotations.map fun a => { a with severity := (a.finding.bind grade).getD a.severity } :=
  List.map_congr_left fun a _ => severity_regrade grade a

end Scan

namespace CheckReport

variable (grade : Finding → Option Severity) (path t : Text) (r : RandomStream)

theorem located_ofText : (ofText path t r).located = findings (fun _ => none) t := by
  rw [located, ofText, Scan.annotations_ofText]
  rfl

theorem located_regrade : ((ofText path t r).regrade grade).located = findings grade t := by
  rw [located, regrade, Scan.annotations_regrade, List.filterMap_map, ofText, Scan.annotations_ofText, findings]
  refine List.filterMap_congr fun a _ => ?_
  cases ha : a.finding with
  | none => simp [ha]
  | some f => simp [ha]

/-- An annotation that is an error carries a finding, so grading cannot miss it. -/
theorem hasErrors_regrade :
    ((ofText path t r).regrade grade).scan.hasErrors = (findings grade t).any (·.severity == .error) := by
  rw [regrade, Scan.hasErrors, Scan.annotations_regrade, List.any_map, ofText, Scan.annotations_ofText, findings,
    List.any_filterMap, Bool.eq_iff_iff, List.any_eq_true, List.any_eq_true]
  refine exists_congr fun a => and_congr_right fun ha => ?_
  obtain ⟨m, -, hm⟩ := List.mem_flatMap.1 ha
  cases Scan.fresh_of_mem_annotate hm with
  | info s => exact Iff.rfl
  | error s f =>
    refine Iff.of_eq ?_
    unfold Annotation.error Annotation.isError
    simp

end CheckReport

end TunnelConf
