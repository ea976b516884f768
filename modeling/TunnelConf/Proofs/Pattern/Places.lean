import TunnelConf.Proofs.Pattern.Groups

/-!
# The places that ways lead to

`Pattern.stops` finds places only, each once, and goes on from a place once, however many ways lead there.
Main statement: these are the places where the ways of `Pattern.reaches` end, in the same order
(`stops_between`), so the preferred way ends at the preferred place (`head?_stops_between`). A repetition
leaves out only what has been found before: wherever it has gone on from, all places that come of it are on
the trail (`Covers`), and it stays so (`follow_explores`).
-/

namespace TunnelConf

open Text

namespace Spot

/-- A place between two characters of a text. -/
def In (t : Text) (s : Spot) : Prop := ∃ a b, a ++ b = t ∧ s = between a b

variable {t : Text} {s q : Spot} {l m seen : List Spot}

/-- What is left tells where in a text a place is. -/
theorem In.ext (hs : s.In t) (hq : q.In t) (h : s.left = q.left) : s = q := by
  obtain ⟨a, b, rfl, rfl⟩ := hs
  obtain ⟨c, d, hsplit, rfl⟩ := hq
  have hb : size b = size d := h
  have hnil : ∀ u : Text, size u = 0 → u = [] := by
    intro u hu
    by_contra hne
    have := size_pos_iff.2 hne
    omega
  rcases List.append_eq_append_iff.1 hsplit with ⟨u, rfl, rfl⟩ | ⟨u, rfl, rfl⟩
  · obtain rfl := hnil u (by rw [size_append] at hb; omega)
    rw [List.append_nil, List.nil_append]
  · obtain rfl := hnil u (by rw [size_append] at hb; omega)
    rw [List.append_nil, List.nil_append]

/-! ### Places without repetitions -/

/-- Adds a place to those that have been found. -/
def note (seen : List Spot) (s : Spot) : List Spot :=
  if seen.any (·.left == s.left) then seen else s :: seen

def noteAll (seen l : List Spot) : List Spot := l.foldl note seen

theorem distinct_eq (l : List Spot) : distinct l = (noteAll [] l).reverse := rfl

theorem noteAll_append (seen l m : List Spot) : noteAll seen (l ++ m) = noteAll (noteAll seen l) m :=
  List.foldl_append

theorem subset_note (seen : List Spot) (s : Spot) : seen ⊆ note seen s := by
  rw [note]
  split
  · exact List.Subset.refl _
  · exact List.subset_cons_self s seen

theorem note_of_mem (h : s ∈ seen) : note seen s = seen := by
  have hany : seen.any (·.left == s.left) = true := List.any_eq_true.2 ⟨s, h, beq_self_eq_true _⟩
  rw [note, if_pos hany]

theorem mem_of_mem_note (h : q ∈ note seen s) : q ∈ seen ∨ q = s := by
  rw [note] at h
  split at h
  · exact .inl h
  · exact (List.mem_cons.1 h).symm

theorem mem_note (hseen : ∀ q ∈ seen, q.In t) (hs : s.In t) : s ∈ note seen s := by
  rw [note]
  split
  · rename_i h
    obtain ⟨q, hq, hleft⟩ := List.any_eq_true.1 h
    rwa [hs.ext (hseen q hq) (eq_of_beq hleft).symm]
  · exact List.mem_cons_self

theorem subset_noteAll (seen l : List Spot) : seen ⊆ noteAll seen l := by
  induction l generalizing seen with
  | nil => exact List.Subset.refl _
  | cons s l ih => exact List.Subset.trans (subset_note seen s) (ih _)

theorem noteAll_of_subset (h : ∀ s ∈ l, s ∈ seen) : noteAll seen l = seen := by
  induction l with
  | nil => rfl
  | cons s l ih =>
    obtain ⟨hs, hl⟩ := List.forall_mem_cons.1 h
    rw [noteAll, List.foldl_cons, note_of_mem hs]
    exact ih hl

theorem mem_of_mem_noteAll (h : q ∈ noteAll seen l) : q ∈ seen ∨ q ∈ l := by
  induction l generalizing seen with
  | nil => exact .inl h
  | cons s l ih =>
    rcases ih h with hq | hq
    · rcases mem_of_mem_note hq with hq | rfl
      · exact .inl hq
      · exact .inr List.mem_cons_self
    · exact .inr (List.mem_cons_of_mem s hq)

theorem noteAll_in (hseen : ∀ q ∈ seen, q.In t) (hl : ∀ q ∈ l, q.In t) : ∀ q ∈ noteAll seen l, q.In t :=
  fun q hq => (mem_of_mem_noteAll hq).elim (hseen q) (hl q)

theorem mem_noteAll (hseen : ∀ q ∈ seen, q.In t) (hl : ∀ q ∈ l, q.In t) : ∀ s ∈ l, s ∈ noteAll seen l := by
  induction l generalizing seen with
  | nil => intro s hs; cases hs
  | cons q l ih =>
    obtain ⟨hq, hl⟩ := List.forall_mem_cons.1 hl
    have hnote : ∀ p ∈ note seen q, p.In t := by
      intro p hp
      rcases mem_of_mem_note hp with hp | rfl
      · exact hseen p hp
      · exact hq
    intro s hs
    rcases List.mem_cons.1 hs with rfl | hs
    · exact subset_noteAll _ l (mem_note hseen hq)
    · exact ih hnote hl s hs

theorem mem_distinct (h : q ∈ distinct l) : q ∈ l := by
  rw [distinct_eq, List.mem_reverse] at h
  exact (mem_of_mem_noteAll h).resolve_left List.not_mem_nil

/-- What comes of a place counts once, so it makes no difference to leave out its repetitions. -/
theorem noteAll_flatMap_distinct {f : Spot → List Spot} (seen : List Spot) (hseen : ∀ q ∈ seen, q.In t)
    (hl : ∀ q ∈ l, q.In t) (hf : ∀ s, s.In t → ∀ q ∈ f s, q.In t) :
    noteAll seen ((distinct l).flatMap f) = noteAll seen (l.flatMap f) := by
  induction l using List.reverseRecOn with
  | nil => rfl
  | append_singleton l s ih =>
    obtain ⟨hl, hs⟩ := List.forall_mem_append.1 hl
    have hs := List.forall_mem_singleton.1 hs
    have hconcat : distinct (l ++ [s]) = (note (noteAll [] l) s).reverse := by
      rw [distinct_eq, noteAll_append]
      rfl
    rw [List.flatMap_append, List.flatMap_cons, List.flatMap_nil, List.append_nil, noteAll_append, ← ih hl,
      hconcat]
    by_cases hmem : s ∈ noteAll [] l
    · have hmem' : ∀ q ∈ f s, q ∈ (distinct l).flatMap f := fun q hq =>
        List.mem_flatMap.2 ⟨s, by rwa [distinct_eq, List.mem_reverse], hq⟩
      have hin : ∀ q ∈ (distinct l).flatMap f, q.In t := by
        intro q hq
        obtain ⟨p, hp, hq⟩ := List.mem_flatMap.1 hq
        exact hf p (hl p (mem_distinct hp)) q hq
      rw [note_of_mem hmem, ← distinct_eq, noteAll_of_subset fun q hq => mem_noteAll hseen hin q (hmem' q hq)]
    · have hnew : note (noteAll [] l) s = s :: noteAll [] l := by
        rw [note, if_neg]
        intro h
        obtain ⟨q, hq, hleft⟩ := List.any_eq_true.1 h
        have hin := noteAll_in (List.forall_mem_nil (In t)) hl q hq
        exact hmem (by rwa [hs.ext hin (eq_of_beq hleft).symm])
      rw [hnew, List.reverse_cons, ← distinct_eq, List.flatMap_append, List.flatMap_cons, List.flatMap_nil,
        List.append_nil, noteAll_append]

theorem noteAll_distinct (seen : List Spot) (hseen : ∀ q ∈ seen, q.In t) (hl : ∀ q ∈ l, q.In t) :
    noteAll seen (distinct l) = noteAll seen l := by
  have h := noteAll_flatMap_distinct (f := fun s => [s]) seen hseen hl fun s hs q hq => by
    rwa [List.mem_singleton.1 hq]
  rwa [List.flatMap_singleton', List.flatMap_singleton'] at h

theorem noteAll_flatMap_distinct_right {f : Spot → List Spot} (seen : List Spot) (hseen : ∀ q ∈ seen, q.In t)
    (hf : ∀ s ∈ l, ∀ q ∈ f s, q.In t) :
    noteAll seen (l.flatMap fun s => distinct (f s)) = noteAll seen (l.flatMap f) := by
  induction l generalizing seen with
  | nil => rfl
  | cons s l ih =>
    obtain ⟨hs, hl⟩ := List.forall_mem_cons.1 hf
    rw [List.flatMap_cons, List.flatMap_cons, noteAll_append, noteAll_append, noteAll_distinct seen hseen hs,
      ih _ (noteAll_in hseen hs) hl]

theorem getLast?_noteAll {seen : List Spot} (hne : seen ≠ []) (l : List Spot) :
    (noteAll seen l).getLast? = seen.getLast? := by
  induction l generalizing seen with
  | nil => rfl
  | cons s l ih =>
    rw [noteAll, List.foldl_cons, note]
    split
    · exact ih hne
    · have hcons := ih (List.cons_ne_nil s seen)
      rwa [List.getLast?_cons_of_ne_nil hne] at hcons

/-- The first place is found first. -/
theorem head?_distinct (l : List Spot) : (distinct l).head? = l.head? := by
  cases l with
  | nil => rfl
  | cons s l =>
    rw [distinct_eq, List.head?_reverse]
    exact getLast?_noteAll (List.cons_ne_nil s []) l

theorem distinct_append (l m : List Spot) (hl : ∀ q ∈ l, q.In t) (hm : ∀ q ∈ m, q.In t) :
    distinct (distinct l ++ distinct m) = distinct (l ++ m) := by
  have hnil := List.forall_mem_nil (In t)
  rw [distinct_eq, distinct_eq (l ++ m), noteAll_append, noteAll_append, noteAll_distinct [] hnil hl,
    noteAll_distinct _ (noteAll_in hnil hl) hm]

theorem distinct_flatMap {f : Spot → List Spot} (hl : ∀ q ∈ l, q.In t) (hf : ∀ s, s.In t → ∀ q ∈ f s, q.In t) :
    distinct ((distinct l).flatMap fun s => distinct (f s)) = distinct (l.flatMap f) := by
  have hnil := List.forall_mem_nil (In t)
  have hdistinct : ∀ s ∈ distinct l, ∀ q ∈ f s, q.In t := fun s hs => hf s (hl s (mem_distinct hs))
  rw [distinct_eq (List.flatMap _ _), noteAll_flatMap_distinct_right [] hnil hdistinct,
    noteAll_flatMap_distinct [] hnil hl hf, distinct_eq]

end Spot

namespace Pattern

open Spot

/-! ### Repetitions -/

section Repetitions
variable {α β : Type} {left : α → Nat} {step : α → List α}

theorem map_repeats {left' : β → Nat} {step' : β → List β} {f : α → β} (hleft : ∀ x, left' (f x) = left x)
    (hstep : ∀ x, (step x).map f = step' (f x)) (greedy : Bool) (fuel : Nat) (x : α) :
    (repeats left step greedy fuel x).map f = repeats left' step' greedy fuel (f x) := by
  induction fuel generalizing x with
  | zero => rfl
  | succ fuel ih =>
    rw [repeats, repeats, ← hstep, List.map_flatMap, List.flatMap_map]
    congr 1
    funext y
    rw [hleft, hleft]
    split <;> cases greedy <;> simp [ih]

theorem map_times {left' : β → Nat} {step' : β → List β} {f : α → β} (hleft : ∀ x, left' (f x) = left x)
    (hstep : ∀ x, (step x).map f = step' (f x)) (greedy : Bool) (many : Repetition) (x : α) :
    (times left step greedy many x).map f = times left' step' greedy many (f x) := by
  have honce := map_repeats hleft hstep greedy
  cases many with
  | zeroOrOne => cases greedy <;> simp [times, hstep]
  | zeroOrMore => cases greedy <;> simp [times, honce, hleft]
  | oneOrMore => rw [times, times, honce, hleft]

end Repetitions

section Follow
variable {t : Text} {step ways : Spot → List Spot} {greedy : Bool}

/-- A step leads to the places at the ends of ways, all of them further on in the text. -/
structure Steps (t : Text) (step ways : Spot → List Spot) : Prop where
  further : ∀ s, s.In t → ∀ q ∈ ways s, q.In t ∧ q.left ≤ s.left
  eq : ∀ s, s.In t → step s = distinct (ways s)

/-- What comes of going on from a place, which is only done if less is left there. -/
def onward (ways : Spot → List Spot) (greedy : Bool) (fuel : Nat) (s q : Spot) : List Spot :=
  if q.left < s.left then repeats Spot.left ways greedy fuel q else []

/-- What comes of a place: the place itself, and what comes of going on from there. -/
def visited (ways : Spot → List Spot) (greedy : Bool) (fuel : Nat) (s q : Spot) : List Spot :=
  if greedy then onward ways greedy fuel s q ++ [q] else q :: onward ways greedy fuel s q

theorem repeats_succ (fuel : Nat) (s : Spot) :
    repeats Spot.left ways greedy (fuel + 1) s = (ways s).flatMap (visited ways greedy fuel s) := rfl

theorem mem_visited {fuel : Nat} {s q p : Spot} (h : p ∈ visited ways greedy fuel s q) :
    p = q ∨ p ∈ repeats Spot.left ways greedy fuel q := by
  have hcases : p = q ∨ p ∈ onward ways greedy fuel s q := by
    cases greedy with
    | false => exact List.mem_cons.1 h
    | true => exact (List.mem_append.1 h).symm.imp_left List.mem_singleton.1
  rw [onward] at hcases
  split at hcases
  · exact hcases
  · exact hcases.imp_right fun h => absurd h List.not_mem_nil

theorem Steps.of_mem_repeats (h : Steps t step ways) {fuel : Nat} {s q : Spot} (hs : s.In t)
    (hq : q ∈ repeats Spot.left ways greedy fuel s) : q.In t ∧ q.left ≤ s.left := by
  induction fuel generalizing s with
  | zero => cases hq
  | succ fuel ih =>
    rw [repeats_succ] at hq
    obtain ⟨p, hp, hq⟩ := List.mem_flatMap.1 hq
    obtain ⟨hpin, hple⟩ := h.further s hs p hp
    rcases mem_visited hq with rfl | hq
    · exact ⟨hpin, hple⟩
    · exact ⟨(ih hpin hq).1, (ih hpin hq).2.trans hple⟩

theorem Steps.in_of_mem_visited (h : Steps t step ways) {fuel : Nat} {s q p : Spot} (hq : q.In t)
    (hp : p ∈ visited ways greedy fuel s q) : p.In t := by
  rcases mem_visited hp with rfl | hp
  · exact hq
  · exact (h.of_mem_repeats hq hp).1

/-- The trail has all the places that repetitions from where it has been lead to, as far as fewer than
`n` bytes are left there. -/
structure Covers (t : Text) (ways : Spot → List Spot) (greedy : Bool) (n : Nat) (trail : Trail) : Prop where
  stops_in : ∀ q ∈ trail.stops, q.In t
  done : ∀ s, s.In t → s.left < n → s.left ∈ trail.starts →
    ∀ q ∈ repeats Spot.left ways greedy (s.left + 1) s, q ∈ trail.stops

/-- The second trail is the first one with `l` added, and where else it has been fewer than `n` bytes
are left. -/
structure Explores (t : Text) (ways : Spot → List Spot) (greedy : Bool) (n : Nat) (l : List Spot)
    (trail out : Trail) : Prop where
  stops : out.stops = noteAll trail.stops l
  covers : Covers t ways greedy n out
  keeps : ∀ m ∈ trail.starts, m ∈ out.starts
  starts : ∀ m ∈ out.starts, m ∈ trail.starts ∨ m < n

variable {n : Nat} {l m : List Spot} {trail mid out : Trail}

theorem Explores.refl (h : Covers t ways greedy n trail) : Explores t ways greedy n [] trail trail :=
  ⟨rfl, h, fun _ h => h, fun _ h => .inl h⟩

theorem Explores.trans (h : Explores t ways greedy n l trail mid) (h' : Explores t ways greedy n m mid out) :
    Explores t ways greedy n (l ++ m) trail out where
  stops := by rw [h'.stops, h.stops, noteAll_append]
  covers := h'.covers
  keeps k hk := h'.keeps k (h.keeps k hk)
  starts k hk := (h'.starts k hk).elim (h.starts k) .inr

theorem Covers.stopAt (h : Covers t ways greedy n trail) {q : Spot} (hq : q.In t) :
    Explores t ways greedy n [q] trail (trail.stopAt q) := by
  have hstops : (trail.stopAt q).stops = note trail.stops q := by
    rw [Trail.stopAt, note]
    split <;> rfl
  have hstarts : (trail.stopAt q).starts = trail.starts := by
    rw [Trail.stopAt]
    split <;> rfl
  refine ⟨hstops, ⟨?_, ?_⟩, ?_, ?_⟩
  · rw [hstops]
    intro p hp
    rcases mem_of_mem_note hp with hp | rfl
    · exact h.stops_in p hp
    · exact hq
  · rw [hstops, hstarts]
    exact fun s hs hlt hmem p hp => subset_note _ q (h.done s hs hlt hmem p hp)
  · rw [hstarts]; exact fun _ hk => hk
  · rw [hstarts]; exact fun _ hk => .inl hk

/-- The trail begins to go on from a place further on. -/
theorem Covers.fresh (h : Covers t ways greedy n trail) {q : Spot} (hlt : q.left < n) :
    Covers t ways greedy q.left { trail with starts := q.left :: trail.starts } := by
  refine ⟨h.stops_in, fun x hx hxq hmem => ?_⟩
  rcases List.mem_cons.1 hmem with he | hmem
  · exact absurd he (Nat.ne_of_lt hxq)
  · exact h.done x hx (hxq.trans hlt) hmem

/-- Behind that all is found that repetitions from there lead to. -/
theorem Explores.of_fresh (hsteps : Steps t step ways) (h : Covers t ways greedy n trail) {q : Spot}
    {fuel : Nat} (hq : q.In t) (hlt : q.left < n) (hfuel : q.left < fuel)
    (hout : Explores t ways greedy q.left (repeats Spot.left ways greedy fuel q)
      { trail with starts := q.left :: trail.starts } out) :
    Explores t ways greedy n (repeats Spot.left ways greedy fuel q) trail out := by
  have hkeeps : trail.stops ⊆ out.stops := by
    rw [hout.stops]
    exact subset_noteAll _ _
  refine ⟨hout.stops, ⟨hout.covers.stops_in, fun x hx hxn hmem p hp => ?_⟩, fun k hk => ?_, fun k hk => ?_⟩
  · -- where the trail has been: there to begin with, before, or further on
    rcases hout.starts x.left hmem with hmem | hxq
    · rcases List.mem_cons.1 hmem with he | hmem
      · rw [hx.ext hq he, repeats_fuel greedy (q.left + 1) fuel (Nat.lt_succ_self _) hfuel] at hp
        rw [hout.stops]
        exact mem_noteAll h.stops_in (fun y hy => (hsteps.of_mem_repeats hq hy).1) p hp
      · exact hkeeps (h.done x hx hxn hmem p hp)
    · exact hout.covers.done x hx hxq hmem p hp
  · exact hout.keeps k (List.mem_cons_of_mem _ hk)
  · rcases hout.starts k hk with hk | hk
    · rcases List.mem_cons.1 hk with rfl | hk
      · exact .inr hlt
      · exact .inl hk
    · exact .inr (hk.trans hlt)

/-- Goes on from a place where the trail has not been. -/
def goOn (next : Spot → Trail → Trail) (q : Spot) (trail : Trail) : Trail :=
  if trail.starts.contains q.left then trail else next q { trail with starts := q.left :: trail.starts }

def visit (greedy : Bool) (next : Spot → Trail → Trail) (trail : Trail) (q : Spot) : Trail :=
  if greedy then (goOn next q trail).stopAt q else goOn next q (trail.stopAt q)

theorem follow_succ (fuel : Nat) (s : Spot) (trail : Trail) : follow step greedy (fuel + 1) s trail =
    (step s).foldl (visit greedy (follow step greedy fuel)) trail := rfl

theorem goOn_explores (hsteps : Steps t step ways) {next : Spot → Trail → Trail} {fuel : Nat} {s q : Spot}
    (hq : q.In t) (hle : q.left ≤ s.left) (hfuel : s.left ≤ fuel)
    (hnext : q.left < s.left → ∀ trail : Trail, q.left ∈ trail.starts → Covers t ways greedy q.left trail →
      Explores t ways greedy q.left (repeats Spot.left ways greedy fuel q) trail (next q trail))
    (hstart : s.left ∈ trail.starts) (h : Covers t ways greedy s.left trail) :
    Explores t ways greedy s.left (onward ways greedy fuel s q) trail (goOn next q trail) := by
  rw [goOn, onward]
  by_cases hbeen : q.left ∈ trail.starts
  · rw [if_pos (List.contains_iff_mem.2 hbeen)]
    refine ⟨(noteAll_of_subset fun p hp => ?_).symm, h, fun _ hk => hk, fun _ hk => .inl hk⟩
    split at hp
    · rename_i hlt
      rw [repeats_fuel greedy fuel (q.left + 1) (Nat.lt_of_lt_of_le hlt hfuel) (Nat.lt_succ_self _)] at hp
      exact h.done q hq hlt hbeen p hp
    · cases hp
  · have hlt : q.left < s.left := by
      refine Nat.lt_of_le_of_ne hle fun he => ?_
      rw [he] at hbeen
      exact hbeen hstart
    have hfirst : ¬ trail.starts.contains q.left = true := by rwa [List.contains_iff_mem]
    rw [if_neg hfirst, if_pos hlt]
    exact .of_fresh hsteps h hq hlt (Nat.lt_of_lt_of_le hlt hfuel)
      (hnext hlt _ List.mem_cons_self (h.fresh hlt))

/-- A trail that visits places one after the other. -/
theorem foldl_explores {visit : Trail → Spot → Trail} {f : Spot → List Spot}
    (hvisit : ∀ q ∈ l, ∀ trail : Trail, n ∈ trail.starts → Covers t ways greedy n trail →
      Explores t ways greedy n (f q) trail (visit trail q))
    (hstart : n ∈ trail.starts) (h : Covers t ways greedy n trail) :
    Explores t ways greedy n (l.flatMap f) trail (l.foldl visit trail) := by
  induction l generalizing trail with
  | nil => exact .refl h
  | cons q l ih =>
    obtain ⟨hq, hl⟩ := List.forall_mem_cons.1 hvisit
    have hfirst := hq trail hstart h
    exact hfirst.trans (ih hl (hfirst.keeps n hstart) hfirst.covers)

theorem follow_explores (h : Steps t step ways) (fuel : Nat) {s : Spot} (hs : s.In t) (hfuel : s.left < fuel)
    (hstart : s.left ∈ trail.starts) (hc : Covers t ways greedy s.left trail) :
    Explores t ways greedy s.left (repeats Spot.left ways greedy fuel s) trail
      (follow step greedy fuel s trail) := by
  induction fuel generalizing s trail with
  | zero => cases hfuel
  | succ fuel ih =>
    have hvisit : ∀ q ∈ distinct (ways s), ∀ trail : Trail, s.left ∈ trail.starts →
        Covers t ways greedy s.left trail → Explores t ways greedy s.left (visited ways greedy fuel s q) trail
          (visit greedy (follow step greedy fuel) trail q) := by
      intro q hq
      obtain ⟨hin, hle⟩ := h.further s hs q (mem_distinct hq)
      have hgo : ∀ trail : Trail, s.left ∈ trail.starts → Covers t ways greedy s.left trail →
          Explores t ways greedy s.left (onward ways greedy fuel s q) trail
            (goOn (follow step greedy fuel) q trail) :=
        fun trail => goOn_explores h hin hle (Nat.le_of_lt_succ hfuel) fun hlt _ => ih hin (by omega)
      intro trail hstart hc
      cases greedy with
      | true =>
        have hfirst := hgo trail hstart hc
        exact hfirst.trans (hfirst.covers.stopAt hin)
      | false =>
        have hfirst := hc.stopAt hin
        exact hfirst.trans (hgo _ (hfirst.keeps _ hstart) hfirst.covers)
    have hfold := foldl_explores hvisit hstart hc
    rw [follow_succ, h.eq s hs, repeats_succ]
    refine { hfold with stops := ?_ }
    rw [hfold.stops]
    exact noteAll_flatMap_distinct _ hc.stops_in (fun q hq => (h.further s hs q hq).1)
      fun q hq p hp => h.in_of_mem_visited hq hp

theorem repeatedStops_eq (h : Steps t step ways) (greedy : Bool) {s : Spot} (hs : s.In t) :
    repeatedStops step greedy s = distinct (repeats Spot.left ways greedy (s.left + 1) s) := by
  have hc : Covers t ways greedy s.left ⟨[s.left], []⟩ := by
    refine ⟨fun q hq => absurd hq List.not_mem_nil, fun x _ hlt hmem => ?_⟩
    rw [List.mem_singleton.1 hmem] at hlt
    exact absurd hlt (Nat.lt_irrefl _)
  have hout := follow_explores h (s.left + 1) hs (Nat.lt_succ_self _) List.mem_cons_self hc
  rw [repeatedStops, hout.stops, distinct_eq]

end Follow

/-! ### The ends of ways -/

section Ends
variable {total : Nat} {t : Text} {s : Spot} {p q : Pattern} {f : Spot → List Spot}

/-- The places where the ways from a place end. -/
def ends (total : Nat) (p : Pattern) (s : Spot) : List Spot := (p.reaches total ⟨s, []⟩).map Reach.spot

theorem map_spot_sequence (hq : ∀ r, (q.reaches total r).map Reach.spot = f r.spot) (r : Reach) :
    ((Pattern.sequence p q).reaches total r).map Reach.spot =
      ((p.reaches total r).map Reach.spot).flatMap f := by
  rw [reaches, List.map_flatMap, List.flatMap_map]
  exact congrArg (fun g => (p.reaches total r).flatMap g) (funext hq)

theorem map_spot_repeated (hp : ∀ r, (p.reaches total r).map Reach.spot = f r.spot) (many : Repetition)
    (greedy : Bool) (r : Reach) : ((Pattern.repeated many greedy p).reaches total r).map Reach.spot =
      times Spot.left f greedy many r.spot :=
  map_times (fun _ => rfl) hp greedy many r

/-- The groups on the way to a place have no bearing on the ways from there. -/
theorem map_spot_reaches (p : Pattern) (r : Reach) :
    (p.reaches total r).map Reach.spot = p.ends total r.spot := by
  induction p generalizing r with
  | empty => rfl
  | look l =>
    rw [ends, reaches, reaches]
    split
    · rfl
    · rfl
  | oneOf k ignoreCase asciiOnly =>
    rw [ends, reaches, reaches, List.map_map, List.map_map]
    rfl
  | sequence p q ihp ihq => rw [ends, map_spot_sequence ihq, map_spot_sequence ihq, ihp, ihp]
  | choice p q ihp ihq => rw [ends, reaches, reaches, List.map_append, List.map_append, ihp, ihq, ihp, ihq]
  | repeated many greedy inner ih => rw [ends, map_spot_repeated ih, map_spot_repeated ih]
  | group name inner ih =>
    rw [ends, reaches, reaches, List.map_map, List.map_map]
    exact (ih r).trans (ih ⟨r.spot, []⟩).symm

theorem ends_sequence : ends total (.sequence p q) s = (ends total p s).flatMap (ends total q) :=
  map_spot_sequence (map_spot_reaches q) ⟨s, []⟩

theorem ends_choice : ends total (.choice p q) s = ends total p s ++ ends total q s := by
  rw [ends, reaches, List.map_append]
  rfl

theorem ends_repeated (many : Repetition) (greedy : Bool) :
    ends total (.repeated many greedy p) s = times Spot.left (ends total p) greedy many s :=
  map_spot_repeated (map_spot_reaches p) many greedy ⟨s, []⟩

theorem ends_group (name : Option Text) : ends total (.group name p) s = ends total p s := by
  rw [ends, reaches, List.map_map]
  rfl

theorem ends_oneOf (k : CharClass) (ignoreCase asciiOnly : Bool) :
    ends total (.oneOf k ignoreCase asciiOnly) s = (Pattern.oneOf k ignoreCase asciiOnly).stops s := by
  rw [ends, reaches, List.map_map]
  exact List.map_id _

theorem stops_oneOf_between (k : CharClass) (ignoreCase asciiOnly : Bool) (a b : Text) :
    (Pattern.oneOf k ignoreCase asciiOnly).stops (between a b) = [] ∨ ∃ c d, b = c :: d ∧
      (Pattern.oneOf k ignoreCase asciiOnly).stops (between a b) = [between (a ++ [c]) d] := by
  cases b with
  | nil => exact .inl rfl
  | cons c d =>
    obtain ⟨x, xs, -, hc⟩ := Cell.exists_ofChar c
    have hhead : (between a (c :: d)).rest.head?.bind Cell.char = some c := by
      rw [between, Cell.ofText_cons, hc]
      rfl
    rw [stops, hhead]
    simp only [forward_between a d c]
    split
    · exact .inr ⟨c, d, rfl, rfl⟩
    · exact .inl rfl

theorem mem_times {many : Repetition} {greedy : Bool} {x : Spot} (h : x ∈ times Spot.left f greedy many s) :
    x = s ∨ x ∈ f s ∨ x ∈ repeats Spot.left f greedy (s.left + 1) s := by
  have hends : ∀ l : List Spot, x ∈ (if greedy then l ++ [s] else s :: l) → x = s ∨ x ∈ l := by
    intro l hx
    cases greedy with
    | false => exact List.mem_cons.1 hx
    | true => exact (List.mem_append.1 hx).symm.imp_left List.mem_singleton.1
  cases many with
  | zeroOrOne => exact (hends _ h).imp_right .inl
  | zeroOrMore => exact (hends _ h).imp_right .inr
  | oneOrMore => exact .inr (.inr h)

/-- The place itself, in front of all others or behind them. -/
theorem distinct_ends (greedy : Bool) (hs : s.In t) (l : List Spot) (hl : ∀ q ∈ l, q.In t) :
    distinct (if greedy then distinct l ++ [s] else s :: distinct l) =
      distinct (if greedy then l ++ [s] else s :: l) := by
  have hsin : ∀ q ∈ [s], q.In t := fun q hq => by rwa [List.mem_singleton.1 hq]
  cases greedy with
  | false => exact distinct_append [s] l hsin hl
  | true => exact distinct_append l [s] hl hsin

theorem Steps.stops_repeated (h : Steps t p.stops (p.ends total)) (many : Repetition) (greedy : Bool)
    (hs : s.In t) :
    (Pattern.repeated many greedy p).stops s = distinct (times Spot.left (p.ends total) greedy many s) := by
  have honce := repeatedStops_eq h greedy hs
  cases many with
  | zeroOrOne =>
    simp only [stops, times, h.eq s hs]
    exact distinct_ends greedy hs _ fun q hq => (h.further s hs q hq).1
  | zeroOrMore =>
    simp only [stops, times, honce]
    exact distinct_ends greedy hs _ fun q hq => (h.of_mem_repeats hs hq).1
  | oneOrMore => simp only [stops, times, honce]

/-- The places that a pattern leads to are the ends of the ways to follow it, each once, in the order of
the ways. -/
theorem steps_stops (t : Text) (total : Nat) (p : Pattern) : Steps t p.stops (p.ends total) := by
  induction p with
  | empty =>
    refine ⟨fun s hs q hq => ?_, fun s _ => rfl⟩
    obtain rfl := List.mem_singleton.1 hq
    exact ⟨hs, Nat.le_refl _⟩
  | look l =>
    refine ⟨fun s hs q hq => ?_, fun s _ => ?_⟩
    · rw [ends, reaches] at hq
      split at hq
      · obtain rfl := List.mem_singleton.1 hq
        exact ⟨hs, Nat.le_refl _⟩
      · cases hq
    · rw [stops, ends, reaches]
      split
      · rfl
      · rfl
  | oneOf k ignoreCase asciiOnly =>
    refine ⟨?_, ?_⟩
    · rintro _ ⟨a, b, rfl, rfl⟩ q hq
      rw [ends_oneOf] at hq
      rcases stops_oneOf_between k ignoreCase asciiOnly a b with hstops | ⟨c, d, rfl, hstops⟩
      · rw [hstops] at hq
        cases hq
      · rw [hstops] at hq
        obtain rfl := List.mem_singleton.1 hq
        refine ⟨⟨a ++ [c], d, by simp, rfl⟩, ?_⟩
        simp only [between, size_cons]
        omega
    · rintro _ ⟨a, b, rfl, rfl⟩
      rw [ends_oneOf]
      rcases stops_oneOf_between k ignoreCase asciiOnly a b with hstops | ⟨c, d, rfl, hstops⟩
      · rw [hstops]
        rfl
      · rw [hstops]
        rfl
  | sequence p q ihp ihq =>
    refine ⟨fun s hs x hx => ?_, fun s hs => ?_⟩
    · rw [ends_sequence] at hx
      obtain ⟨y, hy, hx⟩ := List.mem_flatMap.1 hx
      obtain ⟨hyin, hyle⟩ := ihp.further s hs y hy
      obtain ⟨hxin, hxle⟩ := ihq.further y hyin x hx
      exact ⟨hxin, hxle.trans hyle⟩
    · have hp : ∀ x ∈ p.ends total s, x.In t := fun x hx => (ihp.further s hs x hx).1
      have hq : ∀ x, x.In t → ∀ y ∈ q.ends total x, y.In t := fun x hx y hy => (ihq.further x hx y hy).1
      have hstops : (p.stops s).flatMap q.stops = (distinct (p.ends total s)).flatMap fun x =>
          distinct (q.ends total x) := by
        rw [ihp.eq s hs]
        exact List.flatMap_congr fun x hx => ihq.eq x (hp x (mem_distinct hx))
      rw [stops, hstops, ends_sequence, distinct_flatMap hp hq]
  | choice p q ihp ihq =>
    refine ⟨fun s hs x hx => ?_, fun s hs => ?_⟩
    · rw [ends_choice] at hx
      exact (List.mem_append.1 hx).elim (ihp.further s hs x) (ihq.further s hs x)
    · rw [stops, ihp.eq s hs, ihq.eq s hs, ends_choice]
      exact distinct_append _ _ (fun x hx => (ihp.further s hs x hx).1) fun x hx => (ihq.further s hs x hx).1
  | repeated many greedy inner ih =>
    refine ⟨fun s hs x hx => ?_, fun s hs => ?_⟩
    · rw [ends_repeated] at hx
      rcases mem_times hx with rfl | hx | hx
      · exact ⟨hs, Nat.le_refl _⟩
      · exact ih.further s hs x hx
      · exact ih.of_mem_repeats hs hx
    · rw [ih.stops_repeated many greedy hs, ends_repeated]
  | group name inner ih =>
    refine ⟨fun s hs x hx => ?_, fun s hs => ?_⟩
    · rw [ends_group] at hx
      exact ih.further s hs x hx
    · rw [stops, ih.eq s hs, ends_group]

/-- The places that `stops` finds in a text are where the ways of `reaches` end. -/
theorem stops_between (a b : Text) (g : List Group) :
    p.stops (between a b) = distinct ((p.reaches total ⟨between a b, g⟩).map Reach.spot) := by
  rw [map_spot_reaches, (steps_stops (a ++ b) total p).eq _ ⟨a, b, rfl, rfl⟩]

theorem head?_stops_between (a b : Text) (g : List Group) :
    (p.stops (between a b)).head? = (p.reaches total ⟨between a b, g⟩).head?.map Reach.spot := by
  rw [stops_between a b g, head?_distinct, List.head?_map]

end Ends

end Pattern

end TunnelConf
