import TunnelConf.Proofs.Pattern.Places

/-!
# The stretches that follow a pattern

`Pattern.Matches` says of a stretch between what stands in front of it and what stands behind it whether it follows
a pattern, without regard to preference. Main statements: `mem_ends_iff`, the ways to follow a pattern end where
such a stretch ends; `isFound_textStart_iff`, a pattern that asks for the start of the text is found in a text just
if a first part of the text follows the rest of it.
-/

namespace TunnelConf

open Text

namespace Pattern

open Spot

/-- One or more stretches, one behind the other. -/
inductive Runs (R : Text → Text → Text → Prop) : Text → Text → Text → Prop
  | one {a u b : Text} (h : R a u b) : Runs R a u b
  | cons {a u v b : Text} (h : R a u (v ++ b)) (hs : Runs R (a ++ u) v b) : Runs R a (u ++ v) b

/-- Whether a stretch of a text follows a pattern, given what stands in front of it and behind it. -/
def Matches : Pattern → Text → Text → Text → Prop
  | .empty, _, u, _ => u = []
  | .look l, a, u, b => u = [] ∧ l.holds (between a b) = true
  | .oneOf k ignoreCase asciiOnly, _, u, _ =>
    ∃ c, u = [c] ∧ (asciiOnly = true → c.toNat < 0x80) ∧ k.admits ignoreCase c = true
  | .sequence p q, a, u, b => ∃ x y, u = x ++ y ∧ p.Matches a x (y ++ b) ∧ q.Matches (a ++ x) y b
  | .choice p q, a, u, b => p.Matches a u b ∨ q.Matches a u b
  | .repeated .zeroOrOne _ p, a, u, b => u = [] ∨ p.Matches a u b
  | .repeated .zeroOrMore _ p, a, u, b => u = [] ∨ Runs p.Matches a u b
  | .repeated .oneOrMore _ p, a, u, b => Runs p.Matches a u b
  | .group _ p, a, u, b => p.Matches a u b

/-- Whether some stretch of the text follows the pattern. -/
def isFound (p : Pattern) (t : Text) : Bool := (p.firstStop? none (Cell.ofText t)).isSome

variable {total : Nat} {p q : Pattern} {a b t u : Text} {s : Spot}

/-! ### Ends of stretches -/

/-- The place `s` is where a stretch ends that starts behind `a` and is of the kind `R`. -/
def EndsAt (R : Text → Text → Text → Prop) (a t : Text) (s : Spot) : Prop :=
  ∃ u b, t = u ++ b ∧ s = between (a ++ u) b ∧ R a u b

theorem endsAt_self_iff {P : Text → Text → Prop} :
    EndsAt (fun a u b => u = [] ∧ P a b) a t s ↔ s = between a t ∧ P a t := by
  constructor
  · rintro ⟨_, b, rfl, rfl, rfl, h⟩
    rw [List.append_nil]
    exact ⟨rfl, h⟩
  · rintro ⟨rfl, h⟩
    exact ⟨[], t, rfl, by rw [List.append_nil], rfl, h⟩

theorem endsAt_nil_iff : EndsAt (fun _ u _ => u = []) a t s ↔ s = between a t := by
  simpa using endsAt_self_iff (P := fun _ _ => True) (a := a) (t := t) (s := s)

theorem endsAt_or_iff {R S : Text → Text → Text → Prop} :
    EndsAt (fun a u b => R a u b ∨ S a u b) a t s ↔ EndsAt R a t s ∨ EndsAt S a t s := by
  constructor
  · rintro ⟨u, b, rfl, rfl, h | h⟩
    · exact .inl ⟨u, b, rfl, rfl, h⟩
    · exact .inr ⟨u, b, rfl, rfl, h⟩
  · rintro (⟨u, b, rfl, rfl, h⟩ | ⟨u, b, rfl, rfl, h⟩)
    · exact ⟨u, b, rfl, rfl, .inl h⟩
    · exact ⟨u, b, rfl, rfl, .inr h⟩

theorem left_between_append_lt (a u b : Text) (hu : u ≠ []) :
    (between (a ++ u) b).left < (between a (u ++ b)).left := by
  have := size_pos_iff.2 hu
  show size b < size (u ++ b)
  rw [size_append]
  omega

theorem mem_repeats_succ {f : Spot → List Spot} {greedy : Bool} {fuel : Nat} {x : Spot} :
    s ∈ repeats Spot.left f greedy (fuel + 1) x ↔
      ∃ y ∈ f x, s = y ∨ y.left < x.left ∧ s ∈ repeats Spot.left f greedy fuel y := by
  rw [repeats_succ, List.mem_flatMap]
  refine exists_congr fun y => and_congr_right fun _ => ?_
  have honward : s ∈ onward f greedy fuel x y ↔ y.left < x.left ∧ s ∈ repeats Spot.left f greedy fuel y := by
    rw [onward]
    split
    · next h => simp [h]
    · next h => simp [h]
  cases greedy with
  | false => rw [visited, if_neg (by decide), List.mem_cons, honward]
  | true => rw [visited, if_pos rfl, List.mem_append, List.mem_singleton, honward, or_comm]

section Repeats
variable {R : Text → Text → Text → Prop} {f : Spot → List Spot}

/-- By induction on the fuel: what leads nowhere is not gone on from, so each round has less of the text left. -/
theorem endsAt_of_mem_repeats (hf : ∀ a t s, s ∈ f (between a t) ↔ EndsAt R a t s) {greedy : Bool} {fuel : Nat}
    (h : s ∈ repeats Spot.left f greedy fuel (between a t)) : EndsAt (Runs R) a t s := by
  induction fuel generalizing a t with
  | zero => cases h
  | succ fuel ih =>
    obtain ⟨y, hy, hs⟩ := mem_repeats_succ.1 h
    obtain ⟨u, b, rfl, rfl, hu⟩ := (hf a t y).1 hy
    rcases hs with rfl | ⟨-, hs⟩
    · exact ⟨u, b, rfl, rfl, .one hu⟩
    · obtain ⟨v, d, rfl, rfl, hv⟩ := ih hs
      refine ⟨u ++ v, d, by rw [List.append_assoc], by rw [List.append_assoc], ?_⟩
      exact .cons hu hv

/-- By induction on the stretches: an empty one changes nothing, and behind another one less fuel is enough. -/
theorem mem_repeats_of_runs (hf : ∀ a t s, s ∈ f (between a t) ↔ EndsAt R a t s) (greedy : Bool) {fuel : Nat}
    (hfuel : size (u ++ b) < fuel) (h : Runs R a u b) :
    between (a ++ u) b ∈ repeats Spot.left f greedy fuel (between a (u ++ b)) := by
  induction h generalizing fuel with
  | @one a u b h =>
    cases fuel with
    | zero => cases hfuel
    | succ fuel => exact mem_repeats_succ.2 ⟨_, (hf _ _ _).2 ⟨u, b, rfl, rfl, h⟩, .inl rfl⟩
  | @cons a u v b h _ ih =>
    rcases List.eq_nil_or_concat u with rfl | ⟨w, c, rfl⟩
    · rw [List.append_nil] at ih
      exact ih hfuel
    · have hne : w.concat c ≠ [] := by simp
      rw [List.append_assoc] at hfuel
      cases fuel with
      | zero => cases hfuel
      | succ fuel =>
        have hlt := left_between_append_lt a _ (v ++ b) hne
        have hless : size (v ++ b) < fuel := by
          have := size_pos_iff.2 hne
          rw [size_append] at hfuel
          omega
        rw [← List.append_assoc, List.append_assoc]
        exact mem_repeats_succ.2 ⟨_, (hf _ _ _).2 ⟨_, v ++ b, rfl, rfl, h⟩, .inr ⟨hlt, ih hless⟩⟩

theorem mem_repeats_iff (hf : ∀ a t s, s ∈ f (between a t) ↔ EndsAt R a t s) (greedy : Bool) :
    s ∈ repeats Spot.left f greedy ((between a t).left + 1) (between a t) ↔ EndsAt (Runs R) a t s := by
  constructor
  · exact endsAt_of_mem_repeats hf
  · rintro ⟨u, b, rfl, rfl, h⟩
    exact mem_repeats_of_runs hf greedy (Nat.lt_succ_self _) h

end Repeats

theorem matches_one_iff {k : CharClass} : (one k).Matches a u b ↔ ∃ c, u = [c] ∧ k.admits false c = true := by
  simp [one, Matches]

theorem matches_sequence_empty_iff : (Pattern.sequence p .empty).Matches a u b ↔ p.Matches a u b := by
  constructor
  · rintro ⟨x, y, rfl, h, rfl⟩
    rwa [List.append_nil]
  · intro h
    exact ⟨u, [], by rw [List.append_nil], h, rfl⟩

/-- A run of characters of a class. -/
theorem runs_one_iff {k : CharClass} :
    Runs (one k).Matches a u b ↔ u ≠ [] ∧ ∀ c ∈ u, k.admits false c = true := by
  constructor
  · intro h
    induction h with
    | one h =>
      obtain ⟨c, rfl, hc⟩ := matches_one_iff.1 h
      exact ⟨List.cons_ne_nil c [], by simpa using hc⟩
    | cons h _ ih =>
      obtain ⟨c, rfl, hc⟩ := matches_one_iff.1 h
      exact ⟨List.cons_ne_nil c _, List.forall_mem_cons.2 ⟨hc, ih.2⟩⟩
  · rintro ⟨hne, hall⟩
    induction u generalizing a with
    | nil => exact absurd rfl hne
    | cons c u ih =>
      obtain ⟨hc, hu⟩ := List.forall_mem_cons.1 hall
      have hfirst : ∀ b, (one k).Matches a [c] b := fun b => matches_one_iff.2 ⟨c, rfl, hc⟩
      cases u with
      | nil => exact .one (hfirst b)
      | cons d u => exact .cons (u := [c]) (hfirst _) (ih (List.cons_ne_nil d u) hu)

/-! ### Ways and stretches -/

theorem mem_stops_oneOf_iff (k : CharClass) (ignoreCase asciiOnly : Bool) :
    s ∈ (Pattern.oneOf k ignoreCase asciiOnly).stops (between a t) ↔
      EndsAt (Matches (.oneOf k ignoreCase asciiOnly)) a t s := by
  cases t with
  | nil =>
    constructor
    · intro h
      cases h
    · rintro ⟨u, b, hnil, -, c, rfl, -⟩
      cases hnil
  | cons c d =>
    have hstops : (Pattern.oneOf k ignoreCase asciiOnly).stops (between a (c :: d)) =
        if (!asciiOnly || c.toNat < 0x80) && k.admits ignoreCase c then [between (a ++ [c]) d] else [] := by
      obtain ⟨x, xs, -, hc⟩ := Cell.exists_ofChar c
      have hhead : (between a (c :: d)).rest.head?.bind Cell.char = some c := by
        rw [between, Cell.ofText_cons, hc]
        rfl
      rw [stops, hhead]
      simp only [forward_between a d c]
    have hadmits : ((!asciiOnly || decide (c.toNat < 0x80)) && k.admits ignoreCase c) = true ↔
        (asciiOnly = true → c.toNat < 0x80) ∧ k.admits ignoreCase c = true := by
      cases asciiOnly <;> simp
    rw [hstops]
    constructor
    · intro h
      split at h
      · next hc =>
        obtain rfl := List.mem_singleton.1 h
        exact ⟨[c], d, rfl, rfl, c, rfl, hadmits.1 hc⟩
      · cases h
    · rintro ⟨_, b, hcons, rfl, x, rfl, hx⟩
      obtain ⟨rfl, rfl⟩ := List.cons.inj hcons
      rw [if_pos (hadmits.2 hx)]
      exact List.mem_singleton.2 rfl

theorem mem_times_iff {f : Spot → List Spot} (many : Repetition) (greedy : Bool) {x : Spot} :
    s ∈ times Spot.left f greedy many x ↔ match many with
      | .zeroOrOne => s = x ∨ s ∈ f x
      | .zeroOrMore => s = x ∨ s ∈ repeats Spot.left f greedy (x.left + 1) x
      | .oneOrMore => s ∈ repeats Spot.left f greedy (x.left + 1) x := by
  cases many <;> cases greedy <;> simp [times, or_comm]

/-- The ways to follow a pattern from a place end where a stretch ends that starts at the place and follows the
pattern. -/
theorem mem_ends_iff : s ∈ p.ends total (between a t) ↔ EndsAt p.Matches a t s := by
  induction p generalizing a t s with
  | empty =>
    show s ∈ [between a t] ↔ _
    rw [List.mem_singleton]
    exact endsAt_nil_iff.symm
  | look l =>
    have hends : ends total (.look l) (between a t) = if l.holds (between a t) then [between a t] else [] := by
      rw [ends, reaches]
      split
      · rfl
      · rfl
    rw [hends, List.mem_ite_nil_right, List.mem_singleton, and_comm]
    exact (endsAt_self_iff (P := fun a b => l.holds (between a b) = true)).symm
  | oneOf k ignoreCase asciiOnly =>
    rw [ends_oneOf]
    exact mem_stops_oneOf_iff k ignoreCase asciiOnly
  | sequence p q ihp ihq =>
    rw [ends_sequence, List.mem_flatMap]
    constructor
    · rintro ⟨m, hm, hs⟩
      obtain ⟨x, c, rfl, rfl, hx⟩ := ihp.1 hm
      obtain ⟨y, b, rfl, rfl, hy⟩ := ihq.1 hs
      exact ⟨x ++ y, b, by rw [List.append_assoc], by rw [List.append_assoc], x, y, rfl, hx, hy⟩
    · rintro ⟨_, b, rfl, rfl, x, y, rfl, hx, hy⟩
      refine ⟨between (a ++ x) (y ++ b), ihp.2 ?_, ihq.2 ?_⟩
      · exact ⟨x, y ++ b, List.append_assoc .., rfl, hx⟩
      · exact ⟨y, b, rfl, by rw [List.append_assoc], hy⟩
  | choice p q ihp ihq =>
    rw [ends_choice, List.mem_append, ihp, ihq]
    exact endsAt_or_iff.symm
  | repeated many greedy inner ih =>
    have hmany := mem_repeats_iff (s := s) (a := a) (t := t) (fun a t s => ih) greedy
    rw [ends_repeated, mem_times_iff]
    cases many with
    | zeroOrOne =>
      show _ ∨ _ ↔ EndsAt (fun a u b => u = [] ∨ inner.Matches a u b) a t s
      rw [endsAt_or_iff, endsAt_nil_iff, ih]
    | zeroOrMore =>
      show _ ∨ _ ↔ EndsAt (fun a u b => u = [] ∨ Runs inner.Matches a u b) a t s
      rw [endsAt_or_iff, endsAt_nil_iff, hmany]
    | oneOrMore => exact hmany
  | group name inner ih =>
    rw [ends_group, ih]
    rfl

theorem isSome_head?_stops_iff :
    (p.stops (between a t)).head?.isSome = true ↔ ∃ u b, t = u ++ b ∧ p.Matches a u b := by
  have hstops : (p.stops (between a t)).head? = (p.ends 0 (between a t)).head? := by
    rw [@head?_stops_between 0 p a t [], ends, List.head?_map]
  rw [hstops, List.isSome_head?]
  constructor
  · intro hne
    obtain ⟨s, hs⟩ := List.exists_mem_of_ne_nil _ hne
    obtain ⟨u, b, ht, -, h⟩ := mem_ends_iff.1 hs
    exact ⟨u, b, ht, h⟩
  · rintro ⟨u, b, ht, h⟩
    exact List.ne_nil_of_mem (mem_ends_iff.2 ⟨u, b, ht, rfl, h⟩)

/-! ### Patterns from the start of the text -/

theorem firstStop?_behind (x : UInt8) (cells : List Cell) :
    (Pattern.sequence (.look .textStart) q).firstStop? (some x) cells = none := by
  have hstops : ∀ cells left, (Pattern.sequence (.look .textStart) q).stops ⟨some x, cells, left⟩ = [] :=
    fun _ _ => rfl
  induction cells generalizing x with
  | nil => rfl
  | cons cell cells ih =>
    have hrest := ih cell.byte fun _ _ => rfl
    rw [firstStop?, hstops, hrest]
    rfl

/-- Such a pattern can be followed from the start of a text only. -/
theorem isFound_textStart_iff : (Pattern.sequence (.look .textStart) q).isFound t = true ↔
    ∃ u b, t = u ++ b ∧ q.Matches [] u b := by
  have hfirst : (Pattern.sequence (.look .textStart) q).firstStop? none (Cell.ofText t) =
      ((Pattern.sequence (.look .textStart) q).stops (between [] t)).head? := by
    have hsize : (Cell.ofText t).length = size t := by
      induction t with
      | nil => rfl
      | cons c t ih => rw [Cell.ofText_cons, List.length_append, Cell.length_ofChar, ih, size_cons]
    have hspot : between [] t = ⟨none, Cell.ofText t, (Cell.ofText t).length⟩ := by rw [between, hsize]; rfl
    rw [hspot]
    cases Cell.ofText t with
    | nil => rfl
    | cons cell cells => rw [firstStop?, firstStop?_behind, Option.or_none]; rfl
  rw [isFound, hfirst, isSome_head?_stops_iff]
  refine exists_congr fun u => exists_congr fun b => and_congr_right fun _ => ?_
  constructor
  · rintro ⟨_, y, rfl, ⟨rfl, -⟩, h⟩
    exact h
  · intro h
    exact ⟨[], u, rfl, ⟨rfl, rfl⟩, h⟩

end Pattern

end TunnelConf
