import TunnelConf.Proofs.Lines
import TunnelConf.Proofs.Pattern.Groups

/-!
# Searching a text for a pattern

The stretches of a text that follow a pattern, one after the other. Main statement: for a pattern that is
followed from the start of a line only and takes the line up to its ending they are found line by line,
however lines end (`ReadsLines.groupsIn_eq`). The step is `ReadsLines.found_body`, past one line.
-/

namespace TunnelConf

open Text

namespace Pattern

open Spot

/-- The groups in the stretches that follow a pattern from a place on, one behind the other. An empty
stretch does not count right behind another one, nor inside a character. -/
def found (total : Nat) (p : Pattern) : Nat → Bool → Spot → List (List Group)
  | 0, _, _ => []
  | fuel + 1, behind, s =>
    let next := if s.rest.isEmpty then [] else found total p fuel false (s.forward 1)
    match (p.reaches total ⟨s, []⟩).head? with
    | none => next
    | some r =>
      if r.spot.left < s.left then r.groups :: found total p fuel true r.spot
      else if behind || s.rest.head?.any (·.char.isNone) then next
      else r.groups :: next

/-- The groups in the stretches of a text that follow a pattern. -/
def groupsIn (p : Pattern) (t : Text) : List (List Group) :=
  p.found (size t) (size t + 1) false ⟨none, Cell.ofText t, size t⟩

variable {total : Nat} {a b : Text} {p : Pattern}

/-- A pattern that is followed from the start of a line only. -/
def StartsLines (total : Nat) (p : Pattern) : Prop :=
  ∀ r, Look.holds r.spot .anyLineStart = false → p.reaches total r = []

/-! ### Past what does not follow it -/

theorem found_of_nil {s : Spot} (hs : p.reaches total ⟨s, []⟩ = []) (hrest : s.rest = []) (fuel : Nat)
    (behind : Bool) : found total p fuel behind s = [] := by
  cases fuel with
  | zero => rfl
  | succ fuel => simp only [found, hs, hrest, List.head?_nil, List.isEmpty_nil, if_true]

theorem found_step {before : Option UInt8} {cell : Cell} {cells : List Cell} {left : Nat}
    (hs : p.reaches total ⟨⟨before, cell :: cells, left⟩, []⟩ = []) (fuel : Nat) (behind : Bool) :
    found total p (fuel + 1) behind ⟨before, cell :: cells, left⟩ =
      found total p fuel false ⟨some cell.byte, cells, left - 1⟩ := by
  simp only [found, hs, List.head?_nil, List.isEmpty_cons, Bool.false_eq_true, if_false]
  rfl

/-- The search goes past bytes behind none of which a line starts. -/
theorem found_cells (hp : StartsLines total p) {x : UInt8} {cells rest : List Cell} {left : Nat}
    (hx : x ≠ Look.lineFeed ∧ x ≠ Look.carriageReturn)
    (hcells : ∀ cell ∈ cells, cell.byte ≠ Look.lineFeed ∧ cell.byte ≠ Look.carriageReturn) (fuel : Nat) :
    found total p (fuel + cells.length) false ⟨some x, cells ++ rest, left⟩ =
      found total p fuel false ⟨(cells.getLast?.map Cell.byte).or (some x), rest, left - cells.length⟩ := by
  induction cells generalizing x left with
  | nil => rfl
  | cons cell cells ih =>
    obtain ⟨hcell, hcells⟩ := List.forall_mem_cons.1 hcells
    have hquiet : p.reaches total ⟨⟨some x, cell :: (cells ++ rest), left⟩, []⟩ = [] := by
      refine hp _ ?_
      simp only [Look.holds, Option.all_some, beq_eq_false_iff_ne.2 hx.1, beq_eq_false_iff_ne.2 hx.2,
        Bool.false_and, Bool.or_false]
    have hlast : (cells.getLast?.map Cell.byte).or (some cell.byte) =
        ((cell :: cells).getLast?.map Cell.byte).or (some x) := by
      rw [List.getLast?_cons]
      cases cells.getLast? <;> rfl
    have hleft : left - 1 - cells.length = left - (cells.length + 1) := by omega
    rw [List.cons_append, List.length_cons, ← Nat.add_assoc, found_step hquiet, ih hcell hcells, hlast, hleft]

theorem found_char (hp : StartsLines total p) {c : Char} {fuel : Nat}
    (hquiet : p.reaches total ⟨between a (c :: b), []⟩ = []) (hfuel : size (c :: b) < fuel) (behind : Bool) :
    ∃ fuel', size b < fuel' ∧
      found total p fuel behind (between a (c :: b)) = found total p fuel' false (between (a ++ [c]) b) := by
  obtain ⟨x, xs, hu, hc⟩ := Cell.exists_ofChar c
  set cells : List Cell := xs.map fun y => ⟨y, none⟩
  have hlen : cells.length + 1 = c.utf8Size := by rw [← Cell.length_ofChar, hc, List.length_cons]
  have hspot : between a (c :: b) =
      ⟨(between a (c :: b)).before, ⟨x, some c⟩ :: (cells ++ Cell.ofText b), size (c :: b)⟩ := by
    rw [between, Cell.ofText_cons, hc]
    rfl
  have hnext : between (a ++ [c]) b =
      ⟨(cells.getLast?.map Cell.byte).or (some x), Cell.ofText b, size (c :: b) - 1 - cells.length⟩ := by
    have hleft : size b = size (c :: b) - 1 - cells.length := by rw [size_cons]; omega
    rw [between, Cell.getLast?_ofText_concat, hc, List.getLast?_cons, ← hleft]
    cases cells.getLast? <;> rfl
  obtain ⟨fuel', rfl⟩ : ∃ fuel', fuel = fuel' + cells.length + 1 :=
    ⟨fuel - cells.length - 1, by rw [size_cons] at hfuel; omega⟩
  refine ⟨fuel', by rw [size_cons] at hfuel; omega, ?_⟩
  rw [hspot] at hquiet ⊢
  rw [found_step hquiet, hnext]
  cases hxs : xs with
  | nil => simp only [cells, hxs, List.map_nil]; rfl
  | cons y ys =>
    -- the ends of lines are single bytes
    have hne : c ≠ '\r' ∧ c ≠ '\n' := by
      constructor
      · rintro rfl; rw [hxs] at hu; cases hu
      · rintro rfl; rw [hxs] at hu; cases hu
    have hbytes : ∀ z ∈ x :: xs, z ≠ Look.lineFeed ∧ z ≠ Look.carriageReturn :=
      fun z hz => byte_of_mem_utf8 hne (by rw [hu]; exact hz)
    obtain ⟨hx, hxs⟩ := List.forall_mem_cons.1 hbytes
    refine found_cells hp hx (fun cell hcell => ?_) fuel'
    obtain ⟨z, hz, rfl⟩ := List.mem_map.1 hcell
    exact hxs z hz

/-- The search goes past a text without line endings in which nothing is found at the beginning. -/
theorem found_text (hp : StartsLines total p) {u : Text} (hu : Line.IsBody u) {fuel : Nat}
    (hquiet : p.reaches total ⟨between a (u ++ b), []⟩ = []) (hfuel : size (u ++ b) < fuel) (behind : Bool) :
    ∃ fuel' behind', size b < fuel' ∧ p.reaches total ⟨between (a ++ u) b, []⟩ = [] ∧
      found total p fuel behind (between a (u ++ b)) = found total p fuel' behind' (between (a ++ u) b) := by
  induction u generalizing a fuel behind with
  | nil => exact ⟨fuel, behind, hfuel, by rwa [List.append_nil], by rw [List.append_nil]; rfl⟩
  | cons c u ih =>
    obtain ⟨hc, hu⟩ := Line.isBody_cons.1 hu
    obtain ⟨fuel', hfuel', heq⟩ := found_char hp hquiet hfuel behind
    have hstart : Look.holds (between (a ++ [c]) (u ++ b)) .anyLineStart = false := by
      rw [Bool.eq_false_iff, ne_eq, holds_anyLineStart_iff]
      intro h
      rcases h c (by simp) with rfl | ⟨rfl, -⟩
      · exact hc.2 rfl
      · exact hc.1 rfl
    obtain ⟨fuel'', behind', hfuel'', hquiet', heq'⟩ := ih (a := a ++ [c]) hu (hp _ hstart) hfuel' false
    rw [List.append_assoc] at hquiet' heq'
    exact ⟨fuel'', behind', hfuel'', hquiet', heq.trans heq'⟩

/-! ### Line by line -/

/-- Nothing or the ending of a line comes first. -/
def EndsLine (b : Text) : Prop := ∀ c ∈ b.head?, c = '\r' ∨ c = '\n'

theorem EndsLine.stops {q : Char → Bool} (h : EndsLine b) (hcr : q '\r' = false) (hlf : q '\n' = false) :
    Stops q b := by
  intro c hc
  rcases h c hc with rfl | rfl
  · exact hcr
  · exact hlf

theorem EndsLine.atLineEnd (h : EndsLine b) (ha : a.getLast? ≠ some '\r') : AtLineEnd a b :=
  fun c hc => (h c hc).imp_right fun hlf => ⟨hlf, ha⟩

theorem not_atLineEnd_cons {c : Char} (hc : c ≠ '\r' ∧ c ≠ '\n') : ¬ AtLineEnd a (c :: b) := by
  intro h
  rcases h c rfl with rfl | ⟨rfl, -⟩
  · exact hc.1 rfl
  · exact hc.2 rfl

theorem getLast?_append_isBody {body : Text} (hne : body ≠ []) (hb : Line.IsBody body) :
    (a ++ body).getLast? ≠ some '\r' := by
  rw [List.getLast?_append_of_ne_nil _ hne]
  intro h
  exact (hb _ (List.mem_of_getLast? h)).1 rfl

theorem getLast?_append_ne {body : Text} (ha : a.getLast? ≠ some '\r') (hb : Line.IsBody body) :
    (a ++ body).getLast? ≠ some '\r' := by
  by_cases hne : body = []
  · rwa [hne, List.append_nil]
  · exact getLast?_append_isBody hne hb

/-- Followed from the start of a line, the pattern takes the line up to its ending, and the groups are
those that `read` finds in the line, given where the line starts. -/
structure ReadsLines (total : Nat) (p : Pattern) (read : Nat → Text → Option (List Group)) : Prop where
  start : StartsLines total p
  nil : ∀ n, read n [] = none
  line : ∀ a body b, total = size a + size (body ++ b) → AtLineStart a (body ++ b) → Line.IsBody body →
    EndsLine b → (p.reaches total ⟨between a (body ++ b), []⟩).head? =
      (read (size a) body).map fun g => ⟨between (a ++ body) b, g⟩

variable {read : Nat → Text → Option (List Group)} {body : Text} {fuel : Nat}

theorem not_atLineStart_append (hne : body ≠ []) (hb : Line.IsBody body) : ¬ AtLineStart (a ++ body) b := by
  intro h
  obtain ⟨u, c, rfl⟩ := (List.eq_nil_or_concat body).resolve_left hne
  rw [List.concat_eq_append] at h hb
  have hc := hb c (by simp)
  rcases h c (by rw [← List.append_assoc, List.getLast?_concat]; rfl) with rfl | ⟨rfl, -⟩
  · exact hc.2 rfl
  · exact hc.1 rfl

theorem ReadsLines.quiet (h : ReadsLines total p read) (hs : ¬ AtLineStart a b) :
    p.reaches total ⟨between a b, []⟩ = [] :=
  h.start _ (by rw [Bool.eq_false_iff, ne_eq, holds_anyLineStart_iff]; exact hs)

theorem ReadsLines.found_body (h : ReadsLines total p read) (htotal : total = size a + size (body ++ b))
    (hstart : AtLineStart a (body ++ b)) (hb : Line.IsBody body)
    (hend : EndsLine b) (hfuel : size (body ++ b) < fuel) (behind : Bool) :
    ∃ fuel' behind', size b < fuel' ∧ p.reaches total ⟨between (a ++ body) b, []⟩ = [] ∧
      found total p fuel behind (between a (body ++ b)) =
        (read (size a) body).toList ++ found total p fuel' behind' (between (a ++ body) b) := by
  have hline := h.line a body b htotal hstart hb hend
  cases hr : read (size a) body with
  | none =>
    rw [hr, Option.map_none, List.head?_eq_none_iff] at hline
    exact found_text h.start hb hline hfuel behind
  | some g =>
    have hne : body ≠ [] := by
      rintro rfl
      rw [h.nil] at hr
      cases hr
    have hlt : size b < size (body ++ b) := by
      have := size_pos_iff.2 hne
      rw [size_append]
      omega
    obtain ⟨fuel', rfl⟩ : ∃ fuel', fuel = fuel' + 1 := ⟨fuel - 1, by omega⟩
    refine ⟨fuel', true, by omega, h.quiet (not_atLineStart_append hne hb), ?_⟩
    rw [hr, Option.map_some] at hline
    rw [found, hline]
    exact if_pos hlt

theorem ReadsLines.found_ending (h : ReadsLines total p read) {e : Ending}
    (hquiet : p.reaches total ⟨between a (e.text ++ b), []⟩ = []) (hfuel : size (e.text ++ b) < fuel)
    (behind : Bool) :
    ∃ fuel' behind', size b < fuel' ∧
      found total p fuel behind (between a (e.text ++ b)) =
        found total p fuel' behind' (between (a ++ e.text) b) := by
  cases e with
  | none => exact ⟨fuel, behind, hfuel, by rw [Ending.text, List.append_nil]; rfl⟩
  | lf =>
    obtain ⟨fuel', hfuel', heq⟩ := found_char h.start hquiet hfuel behind
    exact ⟨fuel', false, hfuel', heq⟩
  | cr =>
    obtain ⟨fuel', hfuel', heq⟩ := found_char h.start hquiet hfuel behind
    exact ⟨fuel', false, hfuel', heq⟩
  | crlf =>
    obtain ⟨fuel', hfuel', heq⟩ := found_char (b := '\n' :: b) h.start hquiet hfuel behind
    -- no line starts between the two characters of the ending
    have hinside : ¬ AtLineStart (a ++ ['\r']) ('\n' :: b) := by
      intro hs
      rcases hs '\r' (by simp) with hc | ⟨-, hc⟩
      · exact absurd hc (by decide)
      · exact hc rfl
    obtain ⟨fuel'', hfuel'', heq'⟩ := found_char h.start (h.quiet hinside) hfuel' false
    rw [List.append_assoc] at heq'
    exact ⟨fuel'', false, hfuel'', heq.trans heq'⟩

/-- A line starts behind an ending that a line of the text has. -/
theorem atLineStart_of_precedes {l m : Line} {ms : List Line} (hp : Line.Precedes l m)
    (hm : Line.Proper (m :: ms)) : AtLineStart (a ++ l.text) (Line.textOf (m :: ms)) := by
  intro c hc
  rw [Line.text] at hc
  cases he : l.ending with
  | none => exact absurd he hp.1
  | lf => left; simpa [he, Ending.text, ← List.append_assoc] using hc.symm
  | crlf =>
    left
    have : c = '\n' := by simpa [he, Ending.text, ← List.append_assoc, eq_comm] using hc
    exact this
  | cr =>
    right
    refine ⟨by simpa [he, Ending.text, ← List.append_assoc, eq_comm] using hc, ?_⟩
    exact Line.head?_textOf_ne hm fun hm => hp.2 ⟨he, hm⟩

theorem ReadsLines.found_lines (h : ReadsLines total p read) {ls : List Line} (hls : Line.Proper ls)
    (hstart : AtLineStart a (Line.textOf ls)) (htotal : total = size a + size (Line.textOf ls))
    (hfuel : size (Line.textOf ls) < fuel) (behind : Bool) :
    found total p fuel behind (between a (Line.textOf ls)) =
      (Line.placed (size a) ls).filterMap fun q => read q.1 q.2.body := by
  induction ls generalizing a fuel behind with
  | nil => exact hls.elim
  | cons l ls ih =>
    have hb := hls.isBody l List.mem_cons_self
    have htext : Line.textOf (l :: ls) = l.body ++ (l.ending.text ++ Line.textOf ls) := by
      rw [Line.textOf_cons, Line.text, List.append_assoc]
    have hend : EndsLine (l.ending.text ++ Line.textOf ls) := by
      cases ls with
      | nil => rw [hls.2]; intro c hc; cases hc
      | cons m ms =>
        cases he : l.ending with
        | none => exact absurd he hls.2.1.1
        | lf => exact fun c hc => .inr (Option.some.inj hc).symm
        | crlf => exact fun c hc => .inl (Option.some.inj hc).symm
        | cr => exact fun c hc => .inl (Option.some.inj hc).symm
    rw [htext] at hstart htotal hfuel ⊢
    obtain ⟨fuel', behind', hfuel', hquiet, heq⟩ := h.found_body htotal hstart hb hend hfuel behind
    have hhead : ((Line.placed (size a) (l :: ls)).filterMap fun q => read q.1 q.2.body) =
        (read (size a) l.body).toList ++
          (Line.placed (size (a ++ l.text)) ls).filterMap fun q => read q.1 q.2.body := by
      rw [Line.placed, List.filterMap_cons, size_append]
      cases read (size a) l.body with
      | none => rfl
      | some g => rfl
    rw [heq, hhead]
    refine congrArg (_ ++ ·) ?_
    cases ls with
    | nil =>
      rw [hls.2] at hquiet ⊢
      exact found_of_nil hquiet rfl fuel' behind'
    | cons m ms =>
      obtain ⟨fuel'', behind'', hfuel'', heq'⟩ := h.found_ending hquiet hfuel' behind'
      have hall : a ++ l.body ++ l.ending.text = a ++ l.text := List.append_assoc ..
      rw [heq', hall]
      refine ih hls.2.2 (atLineStart_of_precedes hls.2.1 hls.2.2) ?_ hfuel'' behind''
      rw [htotal]
      simp only [Line.text, size_append]
      omega

/-- The stretches of a text that follow such a pattern are lines of it, one after the other. -/
theorem ReadsLines.groupsIn_eq {t : Text} (h : ReadsLines (size t) p read) :
    p.groupsIn t = (Line.placed 0 (Line.ofVisual t)).filterMap fun q => read q.1 q.2.body := by
  have hstart : AtLineStart [] (Line.textOf (Line.ofVisual t)) := by intro c hc; cases hc
  have hsize : size (Line.textOf (Line.ofVisual t)) = size t := by rw [Line.textOf_ofVisual]
  have hfuel : size (Line.textOf (Line.ofVisual t)) < size t + 1 := by rw [hsize]; exact Nat.lt_succ_self _
  have hfound := h.found_lines (Line.proper_ofVisual t) hstart (by rw [size_nil, hsize, Nat.zero_add]) hfuel
    false
  rw [Line.textOf_ofVisual] at hfound
  exact hfound

end Pattern

end TunnelConf
