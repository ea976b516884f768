import Mathlib.Data.List.Forall2
import TunnelConf.Proofs.Scan.LineGroups

/-!
# What the scanner recognises

`Recognised` says what there is to see in a line, and where in bytes. Main statement:
`scanLines_exact`, the matches of a text are what there is to see in its lines, in order and at most one
for each. The same spans are found by searching the whole text for one pattern.
-/

namespace TunnelConf

open Text Line

/-- What there is to see in a line that starts at byte `n`. A value has no blanks at its ends, and an empty
one is at the end of the line. -/
inductive Recognised (n : Nat) : Text → List Span → Prop
  | comment {lead rest : Text} {c : Char} (hlead : ∀ d ∈ lead, isBlank d = true) (hc : c = '#' ∨ c = ';') :
    Recognised n (lead ++ c :: rest) [⟨n + size lead, size (c :: rest), .comment⟩]
  | header {lead name trail : Text} (hlead : ∀ d ∈ lead, isBlank d = true)
    (hname : ∀ d ∈ name, isWord d = true) (hne : name ≠ []) (htrail : ∀ d ∈ trail, isBlank d = true) :
    Recognised n (lead ++ ('[' :: name ++ [']']) ++ trail)
      [⟨n + size lead, size ('[' :: name ++ [']']), .header⟩]
  | bare {lead name trail : Text} (hlead : ∀ d ∈ lead, isBlank d = true)
    (hname : ∀ d ∈ name, isAlphanumeric d = true) (hne : name ≠ []) (htrail : ∀ d ∈ trail, isBlank d = true) :
    Recognised n (lead ++ name ++ trail) [⟨n + size lead, size name, .key⟩]
  | assigned {lead name gap after value trail : Text} (hlead : ∀ d ∈ lead, isBlank d = true)
    (hname : ∀ d ∈ name, isAlphanumeric d = true) (hne : name ≠ []) (hgap : ∀ d ∈ gap, isBlank d = true)
    (hafter : ∀ d ∈ after, isBlank d = true) (htrail : ∀ d ∈ trail, isBlank d = true)
    (hvalue : ∀ d, value.head? = some d ∨ value.getLast? = some d → isBlank d = false)
    (hempty : value = [] → trail = []) :
    Recognised n (lead ++ name ++ gap ++ '=' :: (after ++ value ++ trail))
      [⟨n + size lead, size name, .key⟩,
        ⟨n + size (lead ++ name ++ gap ++ '=' :: after), size value, .value⟩]

/-! ### The grammar and the forms -/

namespace Recognised

variable {n : Nat} {body : Text} {spans : List Span}

theorem exists_form (h : Recognised n body spans) :
    ∃ f : LineForm, f.render = body ∧ f.Fits ∧ (LineMatch.mk n f).spans = spans := by
  cases h with
  | @comment lead rest c hlead hc =>
    obtain ⟨m, rfl⟩ : ∃ m : Marker, c = m.char := by
      rcases hc with rfl | rfl
      · exact ⟨.hash, rfl⟩
      · exact ⟨.semicolon, rfl⟩
    exact ⟨.comment lead m rest, rfl, hlead, LineMatch.spans_comment n lead m rest⟩
  | @header lead name trail hlead hname hne htrail =>
    exact ⟨.header lead name trail, LineForm.render_header _ _ _, ⟨hlead, hname, hne, htrail⟩,
      LineMatch.spans_header n lead name trail⟩
  | @bare lead name trail hlead hname hne htrail =>
    exact ⟨.pair ⟨lead, name, trail, none⟩, LineForm.render_bare _ _ _,
      ⟨hlead, hname, hne, htrail, by simp⟩, rfl⟩
  | @assigned lead name gap after value trail hlead hname hne hgap hafter htrail hvalue hempty =>
    have hx : (⟨after, value, trail⟩ : Assignment).Fits :=
      ⟨hafter, fun d hd => hvalue d (.inl hd), fun d hd => hvalue d (.inr hd), htrail, hempty⟩
    exact ⟨.pair ⟨lead, name, gap, some ⟨after, value, trail⟩⟩, LineForm.render_assigned _ _ _ _,
      ⟨hlead, hname, hne, hgap, by simpa using hx⟩, LineMatch.spans_assigned n lead name gap _⟩

theorem of_form {f : LineForm} (hf : f.Fits) : Recognised n f.render (LineMatch.mk n f).spans := by
  cases f with
  | comment lead m rest =>
    rw [LineMatch.spans_comment]
    refine comment hf ?_
    cases m with
    | hash => exact .inl rfl
    | semicolon => exact .inr rfl
  | header lead name trail =>
    obtain ⟨hlead, hname, hne, htrail⟩ := hf
    rw [LineForm.render_header, LineMatch.spans_header]
    exact header hlead hname hne htrail
  | pair p =>
    obtain ⟨lead, name, gap, assignment⟩ := p
    cases assignment with
    | none =>
      rw [LineForm.render_bare]
      exact bare hf.lead hf.name hf.name_ne hf.gap
    | some x =>
      have hx := hf.assignment x rfl
      rw [LineForm.render_assigned, LineMatch.spans_assigned]
      exact assigned hf.lead hf.name hf.name_ne hf.gap hx.after hx.trail
        (fun d hd => hd.elim (hx.head d) (hx.last d)) hx.trail_nil

end Recognised

theorem recognised_iff {n : Nat} {body : Text} {spans : List Span} :
    Recognised n body spans ↔ ∃ f, LineForm.ofBody? body = some f ∧ (LineMatch.mk n f).spans = spans := by
  constructor
  · intro h
    obtain ⟨f, hrender, hf, hspans⟩ := h.exists_form
    exact ⟨f, LineForm.ofBody?_eq_some_iff.2 ⟨hrender, hf⟩, hspans⟩
  · rintro ⟨f, hf, rfl⟩
    obtain ⟨rfl, hfit⟩ := LineForm.ofBody?_eq_some_iff.1 hf
    exact Recognised.of_form hfit

/-- The scanner cuts a text into lines at LF, CRLF and lone CR, and there is no other such cut. It lists what
there is to see in these lines, and nothing else. What it lists are the groups in the stretches of the
text that follow the pattern `lineGrammar`, one after the other. -/
theorem scanLines_exact (t : Text) :
    (Proper (ofVisual t) ∧ textOf (ofVisual t) = t ∧
      ∀ ls, Proper ls ∧ textOf ls = t → ls = ofVisual t) ∧
    (∃ rows : List (Option LineMatch), scanLines t = rows.filterMap id ∧
      List.Forall₂ (fun q row => ∀ spans, row.map LineMatch.spans = some spans ↔ Recognised q.1 q.2.body spans)
        (placed 0 (ofVisual t)) rows) ∧
    ∃ p, Pattern.ofText? lineGrammar = some p ∧
      p.groupsIn t = (scanLines t).map fun m => m.spans.map Span.group := by
  refine ⟨⟨proper_ofVisual t, textOf_ofVisual t, ?_⟩, ?_, LinePattern.line, LinePattern.ofText?_lineGrammar,
    LinePattern.groupsIn_line t⟩
  · rintro ls ⟨hls, rfl⟩
    exact (ofVisual_of_proper hls).symm
  · refine ⟨(placed 0 (ofVisual t)).map fun q => (LineForm.ofBody? q.2.body).map (LineMatch.mk q.1), ?_, ?_⟩
    · rw [List.filterMap_map]
      rfl
    · rw [List.forall₂_map_right_iff, List.forall₂_same]
      intro q _ spans
      rw [recognised_iff, Option.map_map, Option.map_eq_some_iff]
      rfl

end TunnelConf
