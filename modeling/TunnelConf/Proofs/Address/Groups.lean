import TunnelConf.Proofs.Address.Dotted

/-!
# Addresses in groups

`Address.IsGroups` is the form of groups with colons between them, of which the last two may be four octets, and
`Address.IsV6` that of a whole address: eight groups, or fewer with two colons for those left out. Main statements:
`exists_isV6`, what is read from the front of a text has this form; `IsV6.read`, and all of the form is read if no
digit, colon or point follows.
-/

namespace TunnelConf

open Text

namespace Address

variable {s : Style} {n g : Nat} {gs octets : List Nat} {first dotted d : Bool} {t u x y r : Text}

/-! ### Groups -/

/-- One or more groups, with colons between them. The flag tells whether the last two are four octets. -/
inductive IsGroups (s : Style) : Text → List Nat → Bool → Prop
  | dotted {x : Text} {octets : List Nat} (h : IsV4 s x octets) : IsGroups s x (groupsOf octets) true
  | one {x : Text} {g : Nat} (h : Numeral 16 4 65536 x g) : IsGroups s x [g] false
  | cons {x y : Text} {g : Nat} {gs : List Nat} {d : Bool} (h : Numeral 16 4 65536 x g)
    (hs : IsGroups s y gs d) : IsGroups s (x ++ ':' :: y) (g :: gs) d

/-- No group, or groups with colons between them. -/
def IsRun (s : Style) (x : Text) (gs : List Nat) (d : Bool) : Prop :=
  x = [] ∧ gs = [] ∧ d = false ∨ IsGroups s x gs d

theorem IsV4.length_groupsOf (h : IsV4 s x octets) : (groupsOf octets).length = 2 := by
  cases h
  rfl

theorem IsGroups.relax (h : IsGroups strict x gs d) (s : Style) : IsGroups s x gs d := by
  induction h with
  | dotted h => exact .dotted (h.relax s)
  | one h => exact .one h
  | cons h _ ih => exact .cons h ih

/-- A group follows a colon unless it is the first one. -/
def atGroup (first : Bool) (x : Text) : Text := if first then x else ':' :: x

theorem readGroups_succ (s : Style) (first : Bool) (n : Nat) (t : Text) : readGroups s first (n + 1) t =
    match if first then some t else expect? ':' t with
    | none => ([], false, t)
    | some u =>
      match if n = 0 then none else readV4? s u with
      | some (octets, r) => (groupsOf octets, true, r)
      | none =>
        match readNumber? 16 4 65536 u with
        | none => ([], false, t)
        | some (g, r) => (g :: (readGroups s false n r).1, (readGroups s false n r).2) := rfl

theorem atGroup_eq_some_iff : (if first then some t else expect? ':' t) = some u ↔ t = atGroup first u := by
  cases first with
  | false => exact expect?_eq_some_iff
  | true => exact Option.some_inj

theorem readGroups_atGroup (s : Style) (first : Bool) (n : Nat) (u : Text) :
    readGroups s first (n + 1) (atGroup first u) =
      match if n = 0 then none else readV4? s u with
      | some (octets, r) => (groupsOf octets, true, r)
      | none =>
        match readNumber? 16 4 65536 u with
        | none => ([], false, atGroup first u)
        | some (g, r) => (g :: (readGroups s false n r).1, (readGroups s false n r).2) := by
  rw [readGroups_succ, atGroup_eq_some_iff.2 rfl]

/-- What is read are as many groups as there may be, or fewer. -/
theorem readGroups_spec (s : Style) (first : Bool) (n : Nat) (t : Text) (h : readGroups s first n t = (gs, d, r)) :
    gs.length ≤ n ∧ (gs = [] ∧ d = false ∧ r = t ∨ ∃ x, t = atGroup first (x ++ r) ∧ IsGroups s x gs d) := by
  induction n generalizing first t gs d r with
  | zero =>
    obtain ⟨rfl, rfl, rfl⟩ : [] = gs ∧ false = d ∧ t = r := by simpa [readGroups] using h
    exact ⟨Nat.le_refl 0, .inl ⟨rfl, rfl, rfl⟩⟩
  | succ n ih =>
    rw [readGroups_succ] at h
    have hnone : ([], false, t) = (gs, d, r) → gs.length ≤ n + 1 ∧
        (gs = [] ∧ d = false ∧ r = t ∨ ∃ x, t = atGroup first (x ++ r) ∧ IsGroups s x gs d) := by
      rintro ⟨⟩
      exact ⟨Nat.zero_le _, .inl ⟨rfl, rfl, rfl⟩⟩
    split at h
    · exact hnone h
    · next u hu =>
      obtain rfl := atGroup_eq_some_iff.1 hu
      split at h
      · next octets r' hv4 =>
        obtain ⟨rfl, rfl, rfl⟩ : groupsOf octets = gs ∧ true = d ∧ r' = r := by simpa using h
        split at hv4
        · cases hv4
        · next hn =>
          obtain ⟨x, rfl, hx, -⟩ := readV4?_eq_some_iff.1 hv4
          refine ⟨?_, .inr ⟨x, rfl, .dotted hx⟩⟩
          rw [hx.length_groupsOf]
          omega
      · split at h
        · exact hnone h
        · next g r' hg =>
          obtain ⟨x, rfl, hx, -⟩ := readNumber?_eq_some_iff.1 hg
          obtain ⟨gs', d', r'', hrest⟩ : ∃ gs' d' r'', readGroups s false n r' = (gs', d', r'') := ⟨_, _, _, rfl⟩
          rw [hrest] at h
          obtain ⟨rfl, rfl, rfl⟩ : g :: gs' = gs ∧ d' = d ∧ r'' = r := by simpa using h
          obtain ⟨hlength, ⟨rfl, rfl, rfl⟩ | ⟨y, rfl, hy⟩⟩ := ih false r' hrest
          · exact ⟨Nat.succ_le_succ hlength, .inr ⟨x, rfl, .one hx⟩⟩
          · exact ⟨Nat.succ_le_succ hlength, .inr ⟨x ++ ':' :: y, by simp [atGroup], .cons hx hy⟩⟩

/-! ### Reading all groups -/

/-- No group goes on here, nor does one follow. -/
structure EndsGroups (r : Text) : Prop where
  stops : Stops isGroupChar r
  colon : ∀ u, r = ':' :: u → Stops isGroupChar u

theorem endsGroups_nil : EndsGroups [] := ⟨stops_nil, nofun⟩

theorem endsGroups_colons (t : Text) : EndsGroups (':' :: ':' :: t) := by
  refine ⟨stops_cons.2 (by decide), ?_⟩
  rintro u ⟨⟩
  exact stops_cons.2 (by decide)

theorem readGroups_eq_nil (first : Bool) (h : ∀ u, t = atGroup first u → Stops isGroupChar u) (n : Nat) :
    readGroups s first n t = ([], false, t) := by
  cases n with
  | zero => rfl
  | succ n =>
    rw [readGroups_succ]
    split
    · rfl
    · next u hu =>
      have hu := h u (atGroup_eq_some_iff.1 hu)
      have hv4 : readV4? s u = none := readV4?_eq_none (x := []) nofun hu
      rw [hv4, ite_self, readNumber?_eq_none (stops_isDigitIn hu)]

theorem EndsGroups.readGroups (h : EndsGroups r) (n : Nat) : readGroups s false n r = ([], false, r) :=
  readGroups_eq_nil false h.colon n

/-- One group, behind which the text goes on with something else than octets. -/
theorem Numeral.readGroups (hx : Numeral 16 4 65536 x g) (hr : Stops isGroupChar r) (n : Nat) :
    readGroups s first (n + 1) (atGroup first (x ++ r)) =
      (g :: (Address.readGroups s false n r).1, (Address.readGroups s false n r).2) := by
  have hread : readNumber? 16 4 65536 (x ++ r) = some (g, r) :=
    readNumber?_eq_some_iff.2 ⟨x, rfl, hx, stops_isDigitIn hr⟩
  rw [readGroups_atGroup, readV4?_eq_none hx.digits hr, ite_self, hread]

theorem IsGroups.readGroups (h : IsGroups s x gs d) (hn : gs.length ≤ n) (hr : EndsGroups r) (first : Bool) :
    readGroups s first n (atGroup first (x ++ r)) = (gs, d, r) := by
  induction h generalizing n first with
  | @dotted x octets h =>
    obtain ⟨n, rfl⟩ : ∃ m, n = m + 2 := ⟨n - 2, by rw [h.length_groupsOf] at hn; omega⟩
    have hread : readV4? s (x ++ r) = some (octets, r) :=
      readV4?_eq_some_iff.2 ⟨x, rfl, h, stops_isDigit hr.stops⟩
    rw [readGroups_atGroup, if_neg n.succ_ne_zero, hread]
  | one h =>
    obtain ⟨n, rfl⟩ : ∃ m, n = m + 1 := ⟨n - 1, by rw [List.length_singleton] at hn; omega⟩
    rw [h.readGroups hr.stops, hr.readGroups]
  | @cons x y g gs d h _ ih =>
    obtain ⟨n, rfl⟩ : ∃ m, n = m + 1 := ⟨n - 1, by rw [List.length_cons] at hn; omega⟩
    have hrest := ih (Nat.le_of_succ_le_succ hn) false
    have hcolon : x ++ ':' :: y ++ r = x ++ atGroup false (y ++ r) := List.append_assoc ..
    have hstops : Stops isGroupChar (atGroup false (y ++ r)) := stops_cons.2 (by decide)
    rw [hcolon, h.readGroups hstops, hrest]

theorem IsRun.readGroups (h : IsRun s x gs d) (hn : gs.length ≤ n) (hr : EndsGroups r) :
    readGroups s true n (x ++ r) = (gs, d, r) := by
  rcases h with ⟨rfl, rfl, rfl⟩ | h
  · exact readGroups_eq_nil true (by rintro u rfl; exact hr.stops) n
  · exact h.readGroups hn hr true

/-! ### Addresses -/

/-- Eight groups, or two colons with groups in front of them and behind them. The colons stand for the groups left
out, of which there is at least one in the strict style. -/
inductive IsV6 (s : Style) : Text → List Nat → Prop
  | full {x : Text} {gs : List Nat} {d : Bool} (h : IsGroups s x gs d) (hlength : gs.length = 8) : IsV6 s x gs
  | short {x y : Text} {front back : List Nat} {d : Bool} (hx : IsRun s x front false) (hy : IsRun s y back d)
    (hfront : front.length ≤ 7) (hlength : front.length + back.length ≤ if s.emptyRun then 8 else 7) :
    IsV6 s (x ++ ':' :: ':' :: y) (front ++ List.replicate (8 - front.length - back.length) 0 ++ back)

theorem IsRun.relax (h : IsRun strict x gs d) (s : Style) : IsRun s x gs d := h.imp_right (·.relax s)

theorem IsV6.relax (h : IsV6 strict x gs) (s : Style) : IsV6 s x gs := by
  cases h with
  | full h hlength => exact .full (h.relax s) hlength
  | short hx hy hfront hlength =>
    have hmost : 7 ≤ if s.emptyRun then 8 else 7 := by split <;> decide
    exact .short (hx.relax s) (hy.relax s) hfront (Nat.le_trans hlength hmost)

theorem isRun_of_spec (h : gs = [] ∧ d = false ∧ r = t ∨ ∃ x, t = atGroup true (x ++ r) ∧ IsGroups s x gs d) :
    ∃ x, t = x ++ r ∧ IsRun s x gs d := by
  rcases h with ⟨rfl, rfl, rfl⟩ | ⟨x, rfl, hx⟩
  · exact ⟨[], rfl, .inl ⟨rfl, rfl, rfl⟩⟩
  · exact ⟨x, rfl, .inr hx⟩

/-- What is read from the front of a text is an address. -/
theorem exists_isV6 (h : readV6? s t = some (gs, r)) : ∃ x, t = x ++ r ∧ IsV6 s x gs := by
  obtain ⟨front, d, r₁, hfront⟩ : ∃ front d r₁, readGroups s true 8 t = (front, d, r₁) := ⟨_, _, _, rfl⟩
  obtain ⟨hle, hspec⟩ := readGroups_spec s true 8 t hfront
  obtain ⟨x, rfl, hx⟩ := isRun_of_spec hspec
  simp only [readV6?, hfront] at h
  split at h
  · next hlength =>
    obtain ⟨rfl, rfl⟩ : front = gs ∧ r₁ = r := by simpa using h
    rcases hx with ⟨-, rfl, -⟩ | hx
    · cases hlength
    · exact ⟨x, rfl, .full hx hlength⟩
  · next hlength =>
    split at h
    · cases h
    · next hdotted =>
      obtain rfl : d = false := by simpa using hdotted
      simp only [Option.bind_eq_bind, Option.bind_eq_some_iff, expect?_eq_some_iff, Option.pure_def,
        Option.some.injEq, Prod.mk.injEq] at h
      obtain ⟨_, rfl, r₂, rfl, rfl, rfl⟩ := h
      obtain ⟨hle', hspec'⟩ := readGroups_spec s true ((if s.emptyRun then 8 else 7) - front.length) r₂ rfl
      obtain ⟨y, hy, hrun⟩ := isRun_of_spec hspec'
      refine ⟨x ++ ':' :: ':' :: y, ?_, .short hx hrun (by omega) ?_⟩
      · rw [List.append_assoc, List.cons_append, List.cons_append, ← hy]
      · have hmost : front.length ≤ if s.emptyRun then 8 else 7 := by split <;> omega
        exact (Nat.add_le_add_left hle' _).trans (Nat.add_sub_cancel' hmost).le

/-- All of an address is read if nothing behind it could belong to one. -/
theorem IsV6.read (h : IsV6 s x gs) (hr : Stops (fun c => isGroupChar c || c == ':') r) :
    readV6? s (x ++ r) = some (gs, r) := by
  have hends : EndsGroups r := by
    refine ⟨fun c hc => (Bool.or_eq_false_iff.1 (hr c hc)).1, ?_⟩
    rintro u rfl
    exact absurd (stops_cons.1 hr) (by decide)
  cases h with
  | full h hlength =>
    have hread : readGroups s true 8 (x ++ r) = (gs, _, r) := h.readGroups hlength.le hends true
    simp only [readV6?, hread, if_pos hlength]
  | @short x y front back d hx hy hfront hlength =>
    have hread : readGroups s true 8 (x ++ ':' :: ':' :: (y ++ r)) = (front, false, ':' :: ':' :: (y ++ r)) :=
      hx.readGroups (by omega) (endsGroups_colons _)
    have hback : readGroups s true ((if s.emptyRun then 8 else 7) - front.length) (y ++ r) = (back, d, r) :=
      hy.readGroups (by omega) hends
    have hne : front.length ≠ 8 := by omega
    rw [List.append_assoc, List.cons_append, List.cons_append]
    simp only [readV6?, hread, if_neg hne, hback, expect?_cons_self, Option.bind_eq_bind, Option.bind_some,
      Option.pure_def, Bool.false_eq_true, if_false]

end Address

end TunnelConf
