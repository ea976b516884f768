import TunnelConf.Pattern.Basic
import TunnelConf.Proofs.Text.Parts

/-!
# Groups of a pattern

The groups on the ways to follow a pattern from a place, the preferred way first (`Pattern.reaches`). What
counts is the first way on which the rest of the pattern can be followed too (`Pattern.first`). For runs of
characters of a class that is the longest such run (`first_longest`), or the shortest one if the run is not
greedy (`first_shortest`).
-/

namespace TunnelConf

open Text

/-- A group with a name, and the bytes that it covers. -/
structure Group where
  name : Text
  start : Nat
  len : Nat
deriving DecidableEq, Repr

/-- A place, and the groups on the way to it. -/
structure Reach where
  spot : Spot
  groups : List Group
deriving DecidableEq, Repr

def Reach.left (r : Reach) : Nat := r.spot.left

namespace Pattern

/-- Repeats what leads from one to others, at least once. What leads nowhere, so that as much is left as
before, is not gone on from. -/
def repeats {α : Type} (left : α → Nat) (step : α → List α) (greedy : Bool) : Nat → α → List α
  | 0, _ => []
  | fuel + 1, x =>
    (step x).flatMap fun y =>
      let further := if left y < left x then repeats left step greedy fuel y else []
      if greedy then further ++ [y] else y :: further

/-- No more is gone on than what is left. -/
theorem repeats_fuel {α : Type} {left : α → Nat} {step : α → List α} (greedy : Bool) (fuel fuel' : Nat) {x : α}
    (h : left x < fuel) (h' : left x < fuel') :
    repeats left step greedy fuel x = repeats left step greedy fuel' x := by
  induction fuel generalizing x fuel' with
  | zero => cases h
  | succ fuel ih =>
    cases fuel' with
    | zero => cases h'
    | succ fuel' =>
      rw [repeats, repeats]
      congr 1
      funext y
      by_cases hy : left y < left x
      · have hfuel := ih fuel' (x := y) (by omega) (by omega)
        simp only [if_pos hy, hfuel]
      · simp only [if_neg hy]

/-- Repeats what leads from one to others, as often as a repetition says. -/
def times {α : Type} (left : α → Nat) (step : α → List α) (greedy : Bool) : Repetition → α → List α
  | .zeroOrOne, x => if greedy then step x ++ [x] else x :: step x
  | .zeroOrMore, x =>
    let once := repeats left step greedy (left x + 1) x
    if greedy then once ++ [x] else x :: once
  | .oneOrMore, x => repeats left step greedy (left x + 1) x

/-- The ways to follow a pattern in a text of `total` bytes, the preferred one first. -/
def reaches (total : Nat) : Pattern → Reach → List Reach
  | .sequence first second, r => (reaches total first r).flatMap (reaches total second)
  | .choice first second, r => reaches total first r ++ reaches total second r
  | .repeated many greedy inner, r => times Reach.left (reaches total inner) greedy many r
  | .group name inner, r =>
    (reaches total inner r).map fun q =>
      { q with groups := q.groups ++
          (name.map fun n => ⟨n, total - r.spot.left, r.spot.left - q.spot.left⟩).toList }
  | .empty, r => [r]
  | .look l, r => if l.holds r.spot then [r] else []
  | .oneOf k ignoreCase asciiOnly, r =>
    ((Pattern.oneOf k ignoreCase asciiOnly).stops r.spot).map fun s => { r with spot := s }

end Pattern

/-! ### Bytes of characters -/

theorem Text.byte_of_mem_utf8 {c : Char} {b : UInt8} (hc : c ≠ '\r' ∧ c ≠ '\n')
    (h : b ∈ String.utf8EncodeChar c) : b ≠ Look.lineFeed ∧ b ≠ Look.carriageReturn := by
  have hcr : c.val.toNat ≠ 13 := fun he => hc.1 (Char.ext (UInt32.toNat_inj.1 he))
  have hlf : c.val.toNat ≠ 10 := fun he => hc.2 (Char.ext (UInt32.toNat_inj.1 he))
  have hb : b.toNat ≠ 10 ∧ b.toNat ≠ 13 := by
    unfold String.utf8EncodeChar at h
    simp only at h
    split at h
    · obtain rfl := List.mem_singleton.1 h
      simp only [UInt8.toNat_ofNat']
      omega
    · -- all bytes of a longer form are beyond ASCII
      have hbig : 128 ≤ b.toNat := by
        split at h
        · simp only [List.mem_cons, List.not_mem_nil, or_false] at h
          rcases h with rfl | rfl <;> simp only [UInt8.toNat_ofNat'] <;> omega
        · split at h
          · simp only [List.mem_cons, List.not_mem_nil, or_false] at h
            rcases h with rfl | rfl | rfl <;> simp only [UInt8.toNat_ofNat'] <;> omega
          · simp only [List.mem_cons, List.not_mem_nil, or_false] at h
            rcases h with rfl | rfl | rfl | rfl <;> simp only [UInt8.toNat_ofNat'] <;> omega
      omega
  constructor
  · rintro rfl; exact hb.1 rfl
  · rintro rfl; exact hb.2 rfl

/-- Only the two characters that end lines have the bytes that end lines. -/
theorem Text.byte_eq_iff {c : Char} {b : UInt8} (h : b ∈ String.utf8EncodeChar c) :
    (b = Look.lineFeed ↔ c = '\n') ∧ (b = Look.carriageReturn ↔ c = '\r') := by
  by_cases hlf : c = '\n'
  · subst hlf
    obtain rfl : b = Look.lineFeed := List.mem_singleton.1 h
    decide
  · by_cases hcr : c = '\r'
    · subst hcr
      obtain rfl : b = Look.carriageReturn := List.mem_singleton.1 h
      decide
    · obtain ⟨h₁, h₂⟩ := byte_of_mem_utf8 ⟨hcr, hlf⟩ h
      exact ⟨⟨fun he => absurd he h₁, fun he => absurd he hlf⟩,
        ⟨fun he => absurd he h₂, fun he => absurd he hcr⟩⟩

namespace Cell

theorem exists_ofChar (c : Char) : ∃ b bs, String.utf8EncodeChar c = b :: bs ∧
    ofChar c = ⟨b, some c⟩ :: bs.map fun b => ⟨b, none⟩ := by
  obtain ⟨b, bs, h⟩ := List.exists_cons_of_ne_nil (@String.utf8EncodeChar_ne_nil c)
  refine ⟨b, bs, h, ?_⟩
  have hu : utf8 [c] = b :: bs := by rw [utf8, List.flatMap_cons, List.flatMap_nil, List.append_nil, h]
  rw [ofChar, hu]

theorem map_byte_ofChar (c : Char) : (ofChar c).map byte = String.utf8EncodeChar c := by
  obtain ⟨b, bs, hu, hc⟩ := exists_ofChar c
  rw [hc, hu, List.map_cons, List.map_map]
  simp [Function.comp_def]

theorem ofChar_ne_nil (c : Char) : ofChar c ≠ [] := by
  obtain ⟨b, bs, -, hc⟩ := exists_ofChar c
  rw [hc]
  exact List.cons_ne_nil _ _

theorem length_ofChar (c : Char) : (ofChar c).length = c.utf8Size := by
  rw [← String.length_utf8EncodeChar, ← map_byte_ofChar, List.length_map]

theorem ofText_cons (c : Char) (t : Text) : ofText (c :: t) = ofChar c ++ ofText t := rfl

theorem ofText_append (s t : Text) : ofText (s ++ t) = ofText s ++ ofText t := by
  simp [ofText]

theorem getLast?_ofText_concat (t : Text) (c : Char) :
    (ofText (t ++ [c])).getLast? = (ofChar c).getLast? := by
  have hc : ofText [c] = ofChar c := by rw [ofText_cons]; exact List.append_nil _
  rw [ofText_append, hc, List.getLast?_append_of_ne_nil _ (ofChar_ne_nil c)]

end Cell

/-! ### Places between characters -/

namespace Spot

/-- The place in a text behind `a` and in front of `b`. -/
def between (a b : Text) : Spot := ⟨(Cell.ofText a).getLast?.map Cell.byte, Cell.ofText b, size b⟩

theorem forward_between (a b : Text) (c : Char) :
    (between a (c :: b)).forward c.utf8Size = between (a ++ [c]) b := by
  have hlen := Cell.length_ofChar c
  simp only [forward, between, Cell.ofText_cons, ← hlen, List.take_left, List.drop_left,
    Cell.getLast?_ofText_concat, size_cons]
  rw [Nat.add_sub_cancel_left]

theorem exists_before_concat (a b : Text) (c : Char) :
    ∃ x ∈ String.utf8EncodeChar c, (between (a ++ [c]) b).before = some x := by
  have h : (between (a ++ [c]) b).before = (String.utf8EncodeChar c).getLast? := by
    rw [between, Cell.getLast?_ofText_concat, ← List.getLast?_map, Cell.map_byte_ofChar]
  refine ⟨_, List.getLast_mem (@String.utf8EncodeChar_ne_nil c), ?_⟩
  rw [h, List.getLast?_eq_getLast_of_ne_nil]

theorem exists_next?_cons (a b : Text) (c : Char) :
    ∃ x ∈ String.utf8EncodeChar c, (between a (c :: b)).next? = some x := by
  obtain ⟨d, ds, hu, hc⟩ := Cell.exists_ofChar c
  refine ⟨d, by rw [hu]; exact List.mem_cons_self, ?_⟩
  rw [next?, between, Cell.ofText_cons, hc]
  rfl

theorem next?_eq_lineFeed_iff (a b : Text) :
    (between a b).next? = some Look.lineFeed ↔ b.head? = some '\n' := by
  cases b with
  | nil => simp [next?, between, Cell.ofText]
  | cons c b =>
    obtain ⟨x, hx, hn⟩ := exists_next?_cons a b c
    rw [hn, List.head?_cons, Option.some_inj, Option.some_inj, (byte_eq_iff hx).1]

theorem before_eq_carriageReturn_iff (a b : Text) :
    (between a b).before = some Look.carriageReturn ↔ a.getLast? = some '\r' := by
  rcases List.eq_nil_or_concat a with rfl | ⟨a, c, rfl⟩
  · simp [between, Cell.ofText]
  · obtain ⟨x, hx, hb⟩ := exists_before_concat a b c
    rw [List.concat_eq_append, hb, List.getLast?_concat, Option.some_inj, Option.some_inj, (byte_eq_iff hx).2]

/-- A line starts at the place between `a` and `b`. -/
def AtLineStart (a b : Text) : Prop := ∀ c ∈ a.getLast?, c = '\n' ∨ c = '\r' ∧ b.head? ≠ some '\n'

/-- A line ends at the place between `a` and `b`. -/
def AtLineEnd (a b : Text) : Prop := ∀ c ∈ b.head?, c = '\r' ∨ c = '\n' ∧ a.getLast? ≠ some '\r'

theorem holds_anyLineStart_iff (a b : Text) :
    Look.holds (between a b) .anyLineStart = true ↔ AtLineStart a b := by
  have hnext := next?_eq_lineFeed_iff a b
  rcases List.eq_nil_or_concat a with rfl | ⟨a, c, rfl⟩
  · simp [Look.holds, AtLineStart, between, Cell.ofText]
  · rw [List.concat_eq_append] at hnext ⊢
    obtain ⟨x, hx, hb⟩ := exists_before_concat a b c
    simp only [Look.holds, hb, AtLineStart, List.getLast?_concat, Option.all_some, Option.mem_def,
      Option.some_inj, Bool.or_eq_true, Bool.and_eq_true, beq_iff_eq, bne_iff_ne, ne_eq, hnext, forall_eq',
      byte_eq_iff hx]

theorem holds_anyLineEnd_iff (a b : Text) :
    Look.holds (between a b) .anyLineEnd = true ↔ AtLineEnd a b := by
  have hbefore := before_eq_carriageReturn_iff a b
  cases b with
  | nil => simp [Look.holds, AtLineEnd, next?, between, Cell.ofText]
  | cons c b =>
    obtain ⟨x, hx, hn⟩ := exists_next?_cons a b c
    simp only [Look.holds, hn, AtLineEnd, List.head?_cons, Option.all_some, Option.mem_def, Option.some_inj,
      Bool.or_eq_true, Bool.and_eq_true, beq_iff_eq, bne_iff_ne, ne_eq, hbefore, forall_eq', byte_eq_iff hx]

end Spot

namespace Pattern

open Spot

/-! ### The first way to follow a pattern -/

variable {α : Type} (total : Nat)

/-- What `k` makes of the first way to follow a pattern of which it makes something. -/
def first (p : Pattern) (k : Reach → Option α) (r : Reach) : Option α := (p.reaches total r).findSome? k

variable {total} {k : Reach → Option α} {r : Reach} {a b : Text} {g : List Group} {p q : Pattern} {K : CharClass}
  {ignoreCase : Bool}

theorem findSome?_flatMap (l : List Reach) (f : Reach → List Reach) :
    (l.flatMap f).findSome? k = l.findSome? fun r => (f r).findSome? k := by
  induction l with
  | nil => rfl
  | cons r l ih =>
    rw [List.flatMap_cons, List.findSome?_append, ih, List.findSome?_cons]
    cases (f r).findSome? k <;> rfl

theorem head?_reaches : (p.reaches total r).head? = first total p some r := by
  rw [first]
  cases p.reaches total r <;> rfl

theorem first_empty : first total .empty k r = k r := by
  rw [first, reaches, List.findSome?_singleton]

theorem first_look (l : Look) : first total (.look l) k r = if l.holds r.spot then k r else none := by
  rw [first, reaches]
  split
  · exact List.findSome?_singleton
  · rfl

theorem reaches_look_sequence {l : Look} (h : l.holds r.spot = false) :
    reaches total (.sequence (.look l) p) r = [] := by
  rw [reaches, reaches, h]
  rfl

theorem first_sequence : first total (.sequence p q) k r = first total p (first total q k) r := by
  rw [first, reaches, findSome?_flatMap]
  rfl

theorem first_sequence_empty : first total (.sequence p .empty) k r = first total p k r := by
  have hempty : first total .empty k = k := funext fun _ => first_empty
  rw [first_sequence, hempty]

theorem first_choice : first total (.choice p q) k r = (first total p k r).or (first total q k r) := by
  rw [first, reaches, List.findSome?_append]
  rfl

theorem first_optional :
    first total (.repeated .zeroOrOne true p) k r = (first total p k r).or (k r) := by
  rw [first, reaches, times, if_pos rfl, List.findSome?_append, List.findSome?_singleton]
  rfl

theorem first_group (name : Option Text) : first total (.group name p) k r =
    first total p (fun q => k { q with groups := q.groups ++
      (name.map fun n => ⟨n, total - r.spot.left, r.spot.left - q.spot.left⟩).toList }) r := by
  rw [first, reaches, List.findSome?_map]
  rfl

/-- A group that begins behind `a`. -/
theorem first_group_some (n : Text) (h : total = size a + size b) :
    first total (.group (some n) p) k ⟨between a b, g⟩ =
      first total p (fun q => k ⟨q.spot, q.groups ++ [⟨n, size a, size b - q.spot.left⟩]⟩)
        ⟨between a b, g⟩ := by
  have hstart : total - (between a b).left = size a := by simp only [between]; omega
  rw [first_group, hstart]
  rfl

/-- What stands in front of a place and behind it, `x` further. -/
theorem total_append {x y : Text} (h : total = size a + size (x ++ y)) : total = size (a ++ x) + size y := by
  rw [h, size_append, size_append, Nat.add_assoc]

theorem first_group_none : first total (.group none p) k r = first total p k r := by
  rw [first_group]
  simp only [Option.map_none, Option.toList_none, List.append_nil]

/-! ### Characters of a class -/

def one (k : CharClass) : Pattern := .oneOf k false false

def only (c : Char) : CharClass := .bracketed false (.char c)

theorem admits_only (d : Char) : (only d).admits false = (· == d) := by
  funext c
  simp [only, CharClass.admits, CharClass.upToCase]

theorem reaches_oneOf_cons (c : Char) : reaches total (.oneOf K ignoreCase false) ⟨between a (c :: b), g⟩ =
    if K.admits ignoreCase c then [⟨between (a ++ [c]) b, g⟩] else [] := by
  have hforward := forward_between a b c
  obtain ⟨x, xs, -, hc⟩ := Cell.exists_ofChar c
  have hhead : (between a (c :: b)).rest.head?.bind Cell.char = some c := by
    rw [between, Cell.ofText_cons, hc]
    rfl
  rw [reaches, stops, hhead]
  simp only [Bool.not_false, Bool.true_or, Bool.true_and, hforward]
  split
  · rfl
  · rfl

theorem reaches_oneOf_of_stops (h : Stops (K.admits ignoreCase) b) :
    reaches total (.oneOf K ignoreCase false) ⟨between a b, g⟩ = [] := by
  cases b with
  | nil => rfl
  | cons c b =>
    rw [reaches_oneOf_cons, stops_cons.1 h]
    rfl

theorem first_oneOf_cons {c : Char} (h : K.admits ignoreCase c = true) :
    first total (.oneOf K ignoreCase false) k ⟨between a (c :: b), g⟩ = k ⟨between (a ++ [c]) b, g⟩ := by
  rw [first, reaches_oneOf_cons, if_pos h, List.findSome?_singleton]

theorem first_oneOf_of_stops (h : Stops (K.admits ignoreCase) b) :
    first total (.oneOf K ignoreCase false) k ⟨between a b, g⟩ = none := by
  rw [first, reaches_oneOf_of_stops h]
  rfl

/-! ### Runs of characters -/

theorem repeats_of_stops (greedy : Bool) (fuel : Nat) (h : Stops (K.admits ignoreCase) b) :
    repeats Reach.left (reaches total (.oneOf K ignoreCase false)) greedy fuel ⟨between a b, g⟩ = [] := by
  cases fuel with
  | zero => rfl
  | succ fuel => rw [repeats, reaches_oneOf_of_stops h, List.flatMap_nil]

theorem repeats_cons (greedy : Bool) (fuel : Nat) {c : Char} (h : K.admits ignoreCase c = true) :
    repeats Reach.left (reaches total (.oneOf K ignoreCase false)) greedy (fuel + 1) ⟨between a (c :: b), g⟩ =
      let further := repeats Reach.left (reaches total (.oneOf K ignoreCase false)) greedy fuel
        ⟨between (a ++ [c]) b, g⟩
      if greedy then further ++ [⟨between (a ++ [c]) b, g⟩] else ⟨between (a ++ [c]) b, g⟩ :: further := by
  have hpos := Char.utf8Size_pos c
  have hlt : Reach.left ⟨between (a ++ [c]) b, g⟩ < Reach.left ⟨between a (c :: b), g⟩ := by
    simp only [Reach.left, between, size_cons]
    omega
  rw [repeats, reaches_oneOf_cons, if_pos h]
  simp only [hlt, if_true, List.flatMap_cons, List.flatMap_nil, List.append_nil]

theorem findSome?_longest (total : Nat) {x y : Text} (fuel : Nat) (hfuel : x.length ≤ fuel)
    (hx : ∀ c ∈ x, K.admits ignoreCase c = true) (hy : Stops (K.admits ignoreCase) y)
    (hk : k ⟨between (a ++ x) y, g⟩ = none →
      ∀ u v, x = u ++ v → v ≠ [] → k ⟨between (a ++ u) (v ++ y), g⟩ = none) :
    (repeats Reach.left (reaches total (.oneOf K ignoreCase false)) true fuel ⟨between a (x ++ y), g⟩ ++
      [(⟨between a (x ++ y), g⟩ : Reach)]).findSome? k = k ⟨between (a ++ x) y, g⟩ := by
  induction x generalizing a fuel with
  | nil =>
    rw [List.nil_append, List.append_nil, repeats_of_stops true fuel hy, List.nil_append,
      List.findSome?_singleton]
  | cons c x ih =>
    obtain ⟨hc, hx⟩ := List.forall_mem_cons.1 hx
    have happend : a ++ [c] ++ x = a ++ c :: x := List.append_assoc ..
    cases fuel with
    | zero => cases hfuel
    | succ fuel =>
      have hrest := ih (a := a ++ [c]) fuel (Nat.le_of_succ_le_succ hfuel) hx fun hnone u v huv hv => by
        rw [happend] at hnone
        have := hk hnone (c :: u) v (by rw [huv]; rfl) hv
        rwa [List.append_assoc]
      rw [List.cons_append, repeats_cons true fuel hc, if_pos rfl, List.findSome?_append, hrest, happend,
        List.findSome?_singleton, ← List.cons_append]
      cases hlast : k ⟨between (a ++ c :: x) y, g⟩ with
      | some o => rfl
      | none =>
        have hnow := hk hlast [] (c :: x) rfl (List.cons_ne_nil c x)
        rw [List.append_nil] at hnow
        rw [hnow]
        rfl

theorem length_le_size_append (x y : Text) : x.length ≤ size (x ++ y) := by
  induction x with
  | nil => exact Nat.zero_le _
  | cons c x ih =>
    have := Char.utf8Size_pos c
    rw [List.cons_append, List.length_cons, size_cons]
    omega

theorem first_longest {x y : Text} (hx : ∀ c ∈ x, K.admits ignoreCase c = true) (hy : Stops (K.admits ignoreCase) y)
    (hk : k ⟨between (a ++ x) y, g⟩ = none →
      ∀ u v, x = u ++ v → v ≠ [] → k ⟨between (a ++ u) (v ++ y), g⟩ = none) :
    first total (.repeated .zeroOrMore true (.oneOf K ignoreCase false)) k ⟨between a (x ++ y), g⟩ =
      k ⟨between (a ++ x) y, g⟩ := by
  have hfuel := length_le_size_append x y
  rw [first, reaches, times, if_pos rfl]
  exact findSome?_longest total _ (Nat.le_succ_of_le hfuel) hx hy hk

theorem first_longest_cons {c : Char} {x y : Text} (hx : ∀ d ∈ c :: x, K.admits ignoreCase d = true)
    (hy : Stops (K.admits ignoreCase) y)
    (hk : k ⟨between (a ++ c :: x) y, g⟩ = none →
      ∀ u v, x = u ++ v → v ≠ [] → k ⟨between (a ++ c :: u) (v ++ y), g⟩ = none) :
    first total (.repeated .oneOrMore true (.oneOf K ignoreCase false)) k ⟨between a (c :: x ++ y), g⟩ =
      k ⟨between (a ++ c :: x) y, g⟩ := by
  obtain ⟨hc, hx⟩ := List.forall_mem_cons.1 hx
  have happend : ∀ u : Text, a ++ [c] ++ u = a ++ c :: u := fun u => List.append_assoc ..
  have hfuel := length_le_size_append x y
  have hfuel' : x.length ≤ size (c :: (x ++ y)) := by rw [size_cons]; omega
  have hrun := findSome?_longest (k := k) (g := g) (a := a ++ [c]) total _ hfuel' hx hy
    fun hnone u v huv hv => by
      rw [happend] at hnone ⊢
      exact hk hnone u v huv hv
  rw [happend] at hrun
  rw [first, reaches, times, List.cons_append, repeats_cons true _ hc, if_pos rfl]
  exact hrun

theorem first_oneOrMore_of_stops (h : Stops (K.admits ignoreCase) b) :
    first total (.repeated .oneOrMore true (.oneOf K ignoreCase false)) k ⟨between a b, g⟩ = none := by
  rw [first, reaches, times, repeats_of_stops true _ h]
  rfl

theorem first_lazy : first total (.repeated .zeroOrMore false p) k r =
    (k r).or ((repeats Reach.left (reaches total p) false (r.left + 1) r).findSome? k) := by
  rw [first, reaches, times, if_neg (by decide), List.findSome?_cons]
  cases k r <;> rfl

theorem first_lazy_of_stops (h : Stops (K.admits ignoreCase) b) :
    first total (.repeated .zeroOrMore false (.oneOf K ignoreCase false)) k ⟨between a b, g⟩ =
      k ⟨between a b, g⟩ := by
  rw [first_lazy, repeats_of_stops false _ h]
  exact Option.or_none

/-- A run that is not greedy goes on only if nothing can be made of its end. -/
theorem first_lazy_cons {c : Char} (h : K.admits ignoreCase c = true) :
    first total (.repeated .zeroOrMore false (.oneOf K ignoreCase false)) k ⟨between a (c :: b), g⟩ =
      (k ⟨between a (c :: b), g⟩).or
        (first total (.repeated .zeroOrMore false (.oneOf K ignoreCase false)) k ⟨between (a ++ [c]) b, g⟩) := by
  have hlt : Reach.left ⟨between (a ++ [c]) b, g⟩ < Reach.left ⟨between a (c :: b), g⟩ := by
    have := Char.utf8Size_pos c
    simp only [Reach.left, between, size_cons]
    omega
  have hfuel : repeats Reach.left (reaches total (.oneOf K ignoreCase false)) false
      (Reach.left ⟨between a (c :: b), g⟩) ⟨between (a ++ [c]) b, g⟩ =
        repeats Reach.left (reaches total (.oneOf K ignoreCase false)) false
          (Reach.left ⟨between (a ++ [c]) b, g⟩ + 1) ⟨between (a ++ [c]) b, g⟩ :=
    repeats_fuel false _ _ hlt (Nat.lt_succ_self _)
  rw [first_lazy, repeats_cons false _ h, hfuel, first_lazy, if_neg (by decide), List.findSome?_cons]
  cases k ⟨between (a ++ [c]) b, g⟩ <;> rfl

theorem first_shortest {x y : Text} {o : α} (hx : ∀ c ∈ x, K.admits ignoreCase c = true)
    (hk : ∀ u v, x = u ++ v → v ≠ [] → k ⟨between (a ++ u) (v ++ y), g⟩ = none)
    (ho : k ⟨between (a ++ x) y, g⟩ = some o) :
    first total (.repeated .zeroOrMore false (.oneOf K ignoreCase false)) k ⟨between a (x ++ y), g⟩ = some o := by
  induction x generalizing a with
  | nil =>
    rw [List.append_nil] at ho
    rw [List.nil_append, first_lazy, ho, Option.some_or]
  | cons c x ih =>
    obtain ⟨hc, hx⟩ := List.forall_mem_cons.1 hx
    have hnow := hk [] (c :: x) rfl (List.cons_ne_nil c x)
    rw [List.append_nil] at hnow
    rw [List.cons_append, first_lazy_cons hc, ← List.cons_append, hnow, Option.none_or]
    refine ih hx (fun u v huv hv => ?_) ?_
    · have := hk (c :: u) v (by rw [huv]; rfl) hv
      rwa [List.append_assoc]
    · rwa [List.append_assoc]

end Pattern

end TunnelConf
