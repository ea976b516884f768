import TunnelConf.Address.Subnet
import TunnelConf.Proofs.Address.Groups

/-!
# Forms of addresses, subnets and sockets

The texts that are read as an address (`Address.ofText?_eq_some_iff`), as a subnet (`Subnet.ofText?_eq_some_iff`) and
as a socket (`Socket.ofText?_eq_some_iff`). A reader that is tried first takes nothing from a text that another one
reads (`IsV6.readV4?_eq_none`), so the order in which they are tried does not matter.
-/

namespace TunnelConf

open Text

namespace Address

variable {s : Style} {gs octets : List Nat} {d : Bool} {n : Nat} {c : Char} {t x y r : Text} {a : Address}

theorem complete?_eq_some_iff {α : Type} {o : Option (α × Text)} {v : α} :
    complete? o = some v ↔ o = some (v, []) := by
  constructor
  · intro h
    rcases o with _ | ⟨w, _ | ⟨c, r⟩⟩
    · cases h
    · rw [Option.some.inj h]
    · cases h
  · rintro rfl
    rfl

/-! ### Characters of addresses -/

theorem IsV4.char (h : IsV4 s x octets) : ∀ c ∈ x, isDigit c = true ∨ c = '.' := by
  obtain ⟨hx, hy, hz, hw⟩ := h
  intro c hc
  simp only [List.mem_append, List.mem_cons] at hc
  rcases hc with hc | rfl | hc | rfl | hc | rfl | hc
  · exact .inl (hx.digits c hc)
  · exact .inr rfl
  · exact .inl (hy.digits c hc)
  · exact .inr rfl
  · exact .inl (hz.digits c hc)
  · exact .inr rfl
  · exact .inl (hw.digits c hc)

theorem IsV4.colon_not_mem (h : IsV4 s x octets) : ':' ∉ x := by
  intro hc
  rcases h.char _ hc with hc | hc
  · exact absurd hc (by decide)
  · exact absurd hc (by decide)

theorem IsGroups.char (h : IsGroups s x gs d) : ∀ c ∈ x, isGroupChar c = true ∨ c = ':' := by
  induction h with
  | dotted h =>
    intro c hc
    refine .inl (Bool.or_eq_true_iff.2 ?_)
    exact (h.char c hc).imp isDigitIn_sixteen_of_isDigit fun h => beq_iff_eq.2 h
  | one h => exact fun c hc => .inl (Bool.or_eq_true_iff.2 (.inl (h.digits c hc)))
  | cons h _ ih =>
    intro c hc
    rcases List.mem_append.1 hc with hc | hc
    · exact .inl (Bool.or_eq_true_iff.2 (.inl (h.digits c hc)))
    · exact (List.mem_cons.1 hc).elim .inr (ih c)

theorem IsRun.char (h : IsRun s x gs d) : ∀ c ∈ x, isGroupChar c = true ∨ c = ':' := by
  rcases h with ⟨rfl, -, -⟩ | h
  · exact nofun
  · exact h.char

theorem IsGroups.length_le (h : IsGroups s x gs d) : gs.length ≤ x.count ':' + 2 := by
  induction h with
  | dotted h => rw [h.length_groupsOf]; exact Nat.le_add_left ..
  | one _ => rw [List.length_singleton]; omega
  | cons _ _ ih => rw [List.length_cons, List.count_append, List.count_cons_self]; omega

theorem IsV6.two_le_count (h : IsV6 s x gs) : 2 ≤ x.count ':' := by
  cases h with
  | full h hlength =>
    have := h.length_le
    omega
  | short _ _ _ _ =>
    rw [List.count_append, List.count_cons_self, List.count_cons_self]
    omega

/-- An address in groups begins with a colon or with digits that a colon follows. -/
theorem IsV6.exists_colon (h : IsV6 s x gs) : ∃ y z, x = y ++ ':' :: z ∧ ∀ c ∈ y, isDigitIn 16 c = true := by
  cases h with
  | full h hlength =>
    cases h with
    | dotted h =>
      rw [h.length_groupsOf] at hlength
      cases hlength
    | one h => cases hlength
    | cons h _ => exact ⟨_, _, rfl, h.digits⟩
  | short hx _ _ _ =>
    rcases hx with ⟨rfl, -, -⟩ | hx
    · exact ⟨[], _, rfl, nofun⟩
    · cases hx with
      | one h => exact ⟨_, _, rfl, h.digits⟩
      | cons h _ => exact ⟨_, _, List.append_assoc .., h.digits⟩

/-- No octets are read from the front of an address in groups. -/
theorem IsV6.readV4?_eq_none {s' : Style} (h : IsV6 s x gs) (r : Text) : readV4? s' (x ++ r) = none := by
  obtain ⟨y, z, rfl, hy⟩ := h.exists_colon
  rw [List.append_assoc]
  exact Address.readV4?_eq_none hy (stops_cons.2 (by decide))

/-! ### Addresses -/

/-- The texts for an address in a style. -/
inductive IsForm (s : Style) : Text → Address → Prop
  | v4 {x : Text} {octets : List Nat} (h : IsV4 s x octets) : IsForm s x (.v4 octets)
  | v6 {x : Text} {groups : List Nat} (h : IsV6 s x groups) : IsForm s x (.v6 groups)

theorem complete?_read?_eq_some_iff : complete? (read? s t) = some a ↔ IsForm s t a := by
  rw [complete?_eq_some_iff, read?]
  constructor
  · intro h
    split at h
    · next octets r hread =>
      obtain ⟨rfl, rfl⟩ : .v4 octets = a ∧ r = [] := by simpa using h
      obtain ⟨x, rfl, hx, -⟩ := readV4?_eq_some_iff.1 hread
      rw [List.append_nil]
      exact .v4 hx
    · obtain ⟨⟨groups, r⟩, hread, hp⟩ := Option.map_eq_some_iff.1 h
      obtain ⟨rfl, rfl⟩ : .v6 groups = a ∧ r = [] := by simpa using hp
      obtain ⟨x, rfl, hx⟩ := exists_isV6 hread
      rw [List.append_nil]
      exact .v6 hx
  · intro h
    cases h with
    | v4 h =>
      have hread : readV4? s t = some (_, []) := readV4?_eq_some_iff.2 ⟨t, (List.append_nil t).symm, h, stops_nil⟩
      rw [hread]
    | v6 h =>
      have hread := h.read (r := []) stops_nil
      have hnone : readV4? s (t ++ []) = none := h.readV4?_eq_none []
      rw [List.append_nil] at hread hnone
      rw [hnone, hread]
      rfl

theorem ofText?_eq_some_iff : ofText? t = some a ↔ IsForm strict t a := complete?_read?_eq_some_iff

namespace IsForm

theorem unique {b : Address} (h : IsForm s t a) (h' : IsForm s t b) : a = b :=
  Option.some.inj ((complete?_read?_eq_some_iff.2 h).symm.trans (complete?_read?_eq_some_iff.2 h'))

theorem char (h : IsForm s t a) : ∀ c ∈ t, isGroupChar c = true ∨ c = ':' := by
  cases h with
  | v4 h => exact (IsGroups.dotted h).char
  | v6 h =>
    cases h with
    | full h _ => exact h.char
    | short hx hy _ _ =>
      intro c hc
      simp only [List.mem_append, List.mem_cons] at hc
      rcases hc with hc | rfl | rfl | hc
      · exact hx.char c hc
      · exact .inr rfl
      · exact .inr rfl
      · exact hy.char c hc

theorem relax (h : IsForm strict t a) (s : Style) : IsForm s t a := by
  cases h with
  | v4 h => exact .v4 (h.relax s)
  | v6 h => exact .v6 (h.relax s)

end IsForm

end Address

/-! ### Subnets -/

namespace Subnet

open Address

variable {t r : Text} {a : Address} {n : Nat}

/-- The number of leading bits: two digits at most and no more than 32, or three digits at most and no more than 128. -/
def IsLength : Address → Text → Nat → Prop
  | .v4 _ => Numeral 10 2 33
  | .v6 _ => Numeral 10 3 129

theorem readV4?_eq_some_iff : readV4? t = some (⟨a, n⟩, r) ↔
    ∃ x y octets, t = x ++ '/' :: (y ++ r) ∧ a = .v4 octets ∧ IsV4 loose x octets ∧ Numeral 10 2 33 y n ∧
      Stops (isDigitIn 10) r := by
  simp only [readV4?, Option.bind_eq_bind, Option.bind_eq_some_iff, expect?_eq_some_iff, Option.pure_def,
    Option.some.injEq, Prod.mk.injEq, Prod.exists, Address.readV4?_eq_some_iff, readNumber?_eq_some_iff,
    Subnet.mk.injEq]
  constructor
  · rintro ⟨octets, _, ⟨x, rfl, hx, -⟩, _, rfl, _, _, ⟨y, rfl, hy, hr⟩, ⟨rfl, rfl⟩, rfl⟩
    exact ⟨x, y, octets, rfl, rfl, hx, hy, hr⟩
  · rintro ⟨x, y, octets, rfl, rfl, hx, hy, hr⟩
    exact ⟨octets, _, ⟨x, rfl, hx, stops_cons.2 (by decide)⟩, _, rfl, n, r, ⟨y, rfl, hy, hr⟩, ⟨rfl, rfl⟩, rfl⟩

theorem readV6?_eq_some_iff : readV6? t = some (⟨a, n⟩, r) ↔
    ∃ x y groups, t = x ++ '/' :: (y ++ r) ∧ a = .v6 groups ∧ IsV6 loose x groups ∧ Numeral 10 3 129 y n ∧
      Stops (isDigitIn 10) r := by
  simp only [readV6?, Option.bind_eq_bind, Option.bind_eq_some_iff, expect?_eq_some_iff, Option.pure_def,
    Option.some.injEq, Prod.mk.injEq, Prod.exists, readNumber?_eq_some_iff, Subnet.mk.injEq]
  constructor
  · rintro ⟨groups, _, hread, _, rfl, _, _, ⟨y, rfl, hy, hr⟩, ⟨rfl, rfl⟩, rfl⟩
    obtain ⟨x, rfl, hx⟩ := exists_isV6 hread
    exact ⟨x, y, groups, rfl, rfl, hx, hy, hr⟩
  · rintro ⟨x, y, groups, rfl, rfl, hx, hy, hr⟩
    exact ⟨groups, _, hx.read (stops_cons.2 (by decide)), _, rfl, n, r, ⟨y, rfl, hy, hr⟩, ⟨rfl, rfl⟩, rfl⟩

theorem ofText?_eq_some_iff : ofText? t = some ⟨a, n⟩ ↔
    ∃ x y, t = x ++ '/' :: y ∧ IsForm loose x a ∧ IsLength a y n := by
  rw [ofText?, complete?_eq_some_iff, Option.or_eq_some_iff, readV4?_eq_some_iff, readV6?_eq_some_iff]
  simp only [List.append_nil]
  constructor
  · rintro (⟨x, y, octets, rfl, rfl, hx, hy, -⟩ | ⟨-, x, y, groups, rfl, rfl, hx, hy, -⟩)
    · exact ⟨x, y, rfl, .v4 hx, hy⟩
    · exact ⟨x, y, rfl, .v6 hx, hy⟩
  · rintro ⟨x, y, rfl, hx, hy⟩
    cases hx with
    | v4 hx => exact .inl ⟨x, y, _, rfl, rfl, hx, hy, stops_nil⟩
    | v6 hx =>
      have hnone : readV4? (x ++ '/' :: y) = none := by rw [readV4?, hx.readV4?_eq_none]; rfl
      exact .inr ⟨hnone, x, y, _, rfl, rfl, hx, hy, stops_nil⟩

end Subnet

/-! ### Sockets -/

namespace Socket

open Address

variable {t u r x y z : Text} {a : Address} {n port : Nat}

/-- Digits of a number below 65536, with as many zeros in front as may be. -/
def IsPort (y : Text) (port : Nat) : Prop := Numeral 10 y.length 65536 y port

theorem IsPort.colon_not_mem (h : IsPort y port) : ':' ∉ y := fun hc => absurd (h.digits _ hc) (by decide)

/-- Nothing, or a percent sign with the digits of a number of 32 bits. -/
def IsScope (z : Text) : Prop := z = [] ∨ ∃ y n, z = '%' :: y ∧ Numeral 10 y.length 0x100000000 y n

theorem numeral_length_iff {bound width : Nat} (h : y.length ≤ width) :
    Numeral 10 width bound y n ↔ Numeral 10 y.length bound y n :=
  ⟨fun hy => { hy with length_le := Nat.le_refl _ }, fun hy => { hy with length_le := h }⟩

theorem readPort?_eq_some_iff : readPort? t = some (port, r) ↔
    ∃ y, t = ':' :: (y ++ r) ∧ IsPort y port ∧ Stops (isDigitIn 10) r := by
  simp only [readPort?, Option.bind_eq_bind, Option.bind_eq_some_iff, expect?_eq_some_iff, readNumber?_eq_some_iff]
  constructor
  · rintro ⟨_, rfl, y, rfl, hy, hr⟩
    exact ⟨y, rfl, (numeral_length_iff (by simp)).1 hy, hr⟩
  · rintro ⟨y, rfl, hy, hr⟩
    exact ⟨_, rfl, y, rfl, (numeral_length_iff (by simp)).2 hy, hr⟩

theorem skipScope?_bracket_iff : skipScope? t = some (']' :: u) ↔ ∃ z, t = z ++ ']' :: u ∧ IsScope z := by
  rw [skipScope?]
  constructor
  · intro h
    split at h
    · exact ⟨[], Option.some.inj h, .inl rfl⟩
    · next v hv =>
      obtain rfl := expect?_eq_some_iff.1 hv
      simp only [Option.map_eq_some_iff, Prod.exists, exists_eq_right, readNumber?_eq_some_iff] at h
      obtain ⟨n, y, rfl, hy, -⟩ := h
      exact ⟨'%' :: y, rfl, .inr ⟨y, n, rfl, (numeral_length_iff (by simp)).1 hy⟩⟩
  · rintro ⟨_, rfl, rfl | ⟨y, n, rfl, hy⟩⟩
    · rfl
    · have hread : readNumber? 10 (y ++ ']' :: u).length 0x100000000 (y ++ ']' :: u) = some (n, ']' :: u) :=
        readNumber?_eq_some_iff.2 ⟨y, rfl, (numeral_length_iff (by simp)).2 hy, stops_cons.2 (by decide)⟩
      simp only [List.cons_append, expect?_cons_self, hread, Option.map_some]

theorem IsScope.stops (h : IsScope z) (u : Text) : Stops (fun c => isGroupChar c || c == ':') (z ++ ']' :: u) := by
  rcases h with rfl | ⟨y, n, rfl, -⟩
  · exact stops_cons.2 (by decide)
  · exact stops_cons.2 (by decide)

theorem readV4?_eq_some_iff : readV4? t = some (⟨a, port⟩, r) ↔
    ∃ x y octets, t = x ++ ':' :: (y ++ r) ∧ a = .v4 octets ∧ IsV4 strict x octets ∧ IsPort y port ∧
      Stops (isDigitIn 10) r := by
  simp only [readV4?, Option.bind_eq_bind, Option.bind_eq_some_iff, Option.pure_def, Option.some.injEq,
    Prod.mk.injEq, Prod.exists, Address.readV4?_eq_some_iff, readPort?_eq_some_iff, Socket.mk.injEq]
  constructor
  · rintro ⟨octets, _, ⟨x, rfl, hx, -⟩, _, _, ⟨y, rfl, hy, hr⟩, ⟨rfl, rfl⟩, rfl⟩
    exact ⟨x, y, octets, rfl, rfl, hx, hy, hr⟩
  · rintro ⟨x, y, octets, rfl, rfl, hx, hy, hr⟩
    exact ⟨octets, _, ⟨x, rfl, hx, stops_cons.2 (by decide)⟩, port, r, ⟨y, rfl, hy, hr⟩, ⟨rfl, rfl⟩, rfl⟩

theorem readV6?_eq_some_iff : readV6? t = some (⟨a, port⟩, r) ↔
    ∃ x z y groups, t = '[' :: (x ++ (z ++ ']' :: ':' :: (y ++ r))) ∧ a = .v6 groups ∧ IsV6 strict x groups ∧
      IsScope z ∧ IsPort y port ∧ Stops (isDigitIn 10) r := by
  simp only [readV6?, Option.bind_eq_bind, Option.bind_eq_some_iff, expect?_eq_some_iff, Option.pure_def,
    Option.some.injEq, Prod.mk.injEq, Prod.exists, readPort?_eq_some_iff, Socket.mk.injEq]
  constructor
  · rintro ⟨_, rfl, groups, _, hread, _, hscope, _, rfl, _, _, ⟨y, rfl, hy, hr⟩, ⟨rfl, rfl⟩, rfl⟩
    obtain ⟨x, rfl, hx⟩ := exists_isV6 hread
    obtain ⟨z, rfl, hz⟩ := skipScope?_bracket_iff.1 hscope
    exact ⟨x, z, y, groups, rfl, rfl, hx, hz, hy, hr⟩
  · rintro ⟨x, z, y, groups, rfl, rfl, hx, hz, hy, hr⟩
    exact ⟨_, rfl, groups, _, hx.read (hz.stops _), _, skipScope?_bracket_iff.2 ⟨z, rfl, hz⟩, _, rfl, port, r,
      ⟨y, rfl, hy, hr⟩, ⟨rfl, rfl⟩, rfl⟩

/-- An address and a port with a colon between them. Groups stand in brackets, in which a scope may follow them. -/
inductive IsForm : Text → Socket → Prop
  | v4 {x y : Text} {octets : List Nat} {port : Nat} (hx : IsV4 strict x octets) (hy : IsPort y port) :
    IsForm (x ++ ':' :: y) ⟨.v4 octets, port⟩
  | v6 {x z y : Text} {groups : List Nat} {port : Nat} (hx : IsV6 strict x groups) (hz : IsScope z)
    (hy : IsPort y port) : IsForm ('[' :: (x ++ (z ++ ']' :: ':' :: y))) ⟨.v6 groups, port⟩

theorem ofText?_eq_some_iff {a : Socket} : ofText? t = some a ↔ IsForm t a := by
  obtain ⟨a, port⟩ := a
  rw [ofText?, complete?_eq_some_iff, Option.or_eq_some_iff, readV4?_eq_some_iff, readV6?_eq_some_iff]
  simp only [List.append_nil]
  constructor
  · rintro (⟨x, y, octets, rfl, rfl, hx, hy, -⟩ | ⟨-, x, z, y, groups, rfl, rfl, hx, hz, hy, -⟩)
    · exact .v4 hx hy
    · exact .v6 hx hz hy
  · intro h
    cases h with
    | v4 hx hy => exact .inl ⟨_, _, _, rfl, rfl, hx, hy, stops_nil⟩
    | @v6 x z y groups _ hx hz hy => exact .inr ⟨rfl, x, z, y, groups, rfl, rfl, hx, hz, hy, stops_nil⟩

end Socket

end TunnelConf
