import TunnelConf.Proofs.Address.Forms

/-!
# What the loose style allows

A text in the loose style is one in the strict style unless an octet has a zero in front of other digits or two colons
stand between groups that are eight without them: `Address.IsForm.strict_iff`.
-/

namespace TunnelConf

open Text

namespace Address

variable {s s' : Style} {gs front back octets : List Nat} {d : Bool} {n : Nat} {t x y : Text} {a : Address}

/-- What stands behind the last colon. -/
def afterColons (t : Text) : Text := (splitWhere (· == ':') t).getLast?.getD []

/-- Between the points behind the last colon, some digits begin with a zero that is not all of them. -/
def HasLeadingZero (t : Text) : Prop :=
  '.' ∈ t ∧ ∃ o ∈ splitWhere (· == '.') (afterColons t), o.head? = some '0' ∧ 1 < o.length

/-- Two colons stand between groups that are eight without them. -/
def HasEmptyRun (t : Text) : Prop := ∃ x y front back d, t = x ++ ':' :: ':' :: y ∧ IsRun loose x front false ∧
  IsRun loose y back d ∧ front.length + back.length = 8

/-! ### Octets -/

theorem afterColons_append_cons (x y : Text) : afterColons (x ++ ':' :: y) = afterColons y := by
  rw [afterColons, splitWhere_append_cons (p := (· == ':')) rfl,
    List.getLast?_append_of_ne_nil _ (splitWhere_ne_nil _ y)]
  rfl

theorem afterColons_of_not_mem (h : ':' ∉ t) : afterColons t = t := by
  rw [afterColons, splitWhere_eq_singleton (p := (· == ':'))]
  · rfl
  · rintro c hc
    exact beq_eq_false_iff_ne.2 fun heq => h (heq ▸ hc)

theorem hasLeadingZero_append_cons (hx : '.' ∉ x) : HasLeadingZero (x ++ ':' :: y) ↔ HasLeadingZero y := by
  rw [HasLeadingZero, HasLeadingZero, afterColons_append_cons]
  refine and_congr_left fun _ => ?_
  simp [hx]

theorem hasLeadingZero_cons : HasLeadingZero (':' :: y) ↔ HasLeadingZero y :=
  hasLeadingZero_append_cons (x := []) List.not_mem_nil

theorem IsOctet.of_loose (h : IsOctet loose x n) (hzero : ¬ (x.head? = some '0' ∧ 1 < x.length)) :
    IsOctet strict x n :=
  ⟨h.numeral, fun _ hhead => Nat.not_lt.1 fun hlt => hzero ⟨hhead, hlt⟩⟩

theorem IsOctet.splitWhere_eq (h : IsOctet s x n) : splitWhere (· == '.') x = [x] :=
  splitWhere_eq_singleton fun c hc => beq_eq_false_iff_ne.2 fun heq =>
    absurd (h.digits c hc) (by rw [heq]; decide)

theorem splitWhere_octets {x y z w : Text} {a b c e : Nat} (hx : IsOctet s x a) (hy : IsOctet s y b)
    (hz : IsOctet s z c) (hw : IsOctet s w e) :
    splitWhere (· == '.') (x ++ '.' :: (y ++ '.' :: (z ++ '.' :: w))) = [x, y, z, w] := by
  have hpoint : ∀ a b, splitWhere (· == '.') (a ++ '.' :: b) = splitWhere (· == '.') a ++ splitWhere (· == '.') b :=
    splitWhere_append_cons rfl
  simp only [hpoint, hx.splitWhere_eq, hy.splitWhere_eq, hz.splitWhere_eq, hw.splitWhere_eq, List.singleton_append]

theorem IsV4.not_hasLeadingZero (h : IsV4 strict x octets) : ¬ HasLeadingZero x := by
  rintro ⟨-, o, ho, hhead, hlt⟩
  rw [afterColons_of_not_mem h.colon_not_mem] at ho
  obtain ⟨hx, hy, hz, hw⟩ := h
  rw [splitWhere_octets hx hy hz hw] at ho
  have hstrict : ∃ n, IsOctet strict o n := by
    simp only [List.mem_cons, List.not_mem_nil, or_false] at ho
    rcases ho with rfl | rfl | rfl | rfl
    · exact ⟨_, hx⟩
    · exact ⟨_, hy⟩
    · exact ⟨_, hz⟩
    · exact ⟨_, hw⟩
  obtain ⟨n, ho⟩ := hstrict
  exact absurd (ho.zero rfl hhead) (Nat.not_le.2 hlt)

theorem IsV4.of_loose (h : IsV4 loose x octets) (hzero : ¬ HasLeadingZero x) : IsV4 strict x octets := by
  have hafter := afterColons_of_not_mem h.colon_not_mem
  obtain ⟨hx, hy, hz, hw⟩ := h
  have hnone : ∀ o ∈ splitWhere (· == '.') (afterColons _), ¬ (o.head? = some '0' ∧ 1 < o.length) :=
    fun o ho hlead => hzero ⟨by simp, o, ho, hlead⟩
  rw [hafter, splitWhere_octets hx hy hz hw] at hnone
  exact ⟨hx.of_loose (hnone _ (by simp)), hy.of_loose (hnone _ (by simp)), hz.of_loose (hnone _ (by simp)),
    hw.of_loose (hnone _ (by simp))⟩

/-! ### Groups -/

theorem Numeral.point_not_mem {width bound g : Nat} (h : Numeral 16 width bound x g) : '.' ∉ x := fun hc =>
  absurd (h.digits _ hc) (by decide)

theorem IsGroups.not_hasLeadingZero (h : IsGroups strict x gs d) : ¬ HasLeadingZero x := by
  induction h with
  | dotted h => exact h.not_hasLeadingZero
  | one h => exact fun hzero => h.point_not_mem hzero.1
  | cons h _ ih => rwa [hasLeadingZero_append_cons h.point_not_mem]

theorem IsGroups.of_loose (h : IsGroups loose x gs d) (hzero : ¬ HasLeadingZero x) : IsGroups strict x gs d := by
  induction h with
  | dotted h => exact .dotted (h.of_loose hzero)
  | one h => exact .one h
  | cons h _ ih =>
    rw [hasLeadingZero_append_cons h.point_not_mem] at hzero
    exact .cons h (ih hzero)

theorem IsGroups.point_not_mem (h : IsGroups s x gs false) : '.' ∉ x := by
  generalize hd : false = d at h
  induction h with
  | dotted _ => cases hd
  | one h => exact h.point_not_mem
  | cons h _ ih =>
    rw [List.mem_append, not_or]
    exact ⟨h.point_not_mem, List.not_mem_cons_of_ne_of_not_mem (by decide) (ih hd)⟩

theorem IsRun.point_not_mem (h : IsRun s x gs false) : '.' ∉ x := by
  rcases h with ⟨rfl, -, -⟩ | h
  · exact List.not_mem_nil
  · exact h.point_not_mem

theorem IsRun.not_hasLeadingZero (h : IsRun strict x gs d) : ¬ HasLeadingZero x := by
  rcases h with ⟨rfl, -, -⟩ | h
  · exact fun hzero => absurd hzero.1 List.not_mem_nil
  · exact h.not_hasLeadingZero

theorem IsRun.of_loose (h : IsRun loose x gs d) (hzero : ¬ HasLeadingZero x) : IsRun strict x gs d :=
  h.imp_right (·.of_loose hzero)

/-! ### Addresses -/

theorem IsV6.not_hasLeadingZero (h : IsV6 strict x gs) : ¬ HasLeadingZero x := by
  cases h with
  | full h _ => exact h.not_hasLeadingZero
  | short hx hy _ _ =>
    rw [hasLeadingZero_append_cons hx.point_not_mem, hasLeadingZero_cons]
    exact hy.not_hasLeadingZero

theorem IsV6.of_loose (h : IsV6 loose x gs) (hzero : ¬ HasLeadingZero x) (hrun : ¬ HasEmptyRun x) :
    IsV6 strict x gs := by
  cases h with
  | full h hlength => exact .full (h.of_loose hzero) hlength
  | @short x y front back d hx hy hfront hlength =>
    rw [hasLeadingZero_append_cons hx.point_not_mem, hasLeadingZero_cons] at hzero
    have hle : front.length + back.length ≤ 8 := hlength
    have hne : front.length + back.length ≠ 8 := fun heq => hrun ⟨x, y, front, back, d, rfl, hx, hy, heq⟩
    refine .short (hx.of_loose fun h => hx.point_not_mem h.1) (hy.of_loose hzero) hfront ?_
    show front.length + back.length ≤ 7
    omega

/-- The groups in front of two colons and those behind them are found by reading. -/
theorem readGroups_short (hx : IsRun loose x front false) (hy : IsRun loose y back d)
    (hlength : front.length + back.length ≤ 8) :
    readGroups loose true 8 (x ++ ':' :: ':' :: y) = (front, false, ':' :: ':' :: y) ∧
      readGroups loose true 8 y = (back, d, []) := by
  have hback : readGroups loose true 8 (y ++ []) = (back, d, []) := hy.readGroups (by omega) endsGroups_nil
  rw [List.append_nil] at hback
  exact ⟨hx.readGroups (by omega) (endsGroups_colons y), hback⟩

theorem IsV6.not_hasEmptyRun (h : IsV6 strict t gs) : ¬ HasEmptyRun t := by
  rintro ⟨x, y, front, back, d, ht, hx, hy, heq⟩
  obtain ⟨hfront, hback⟩ := readGroups_short hx hy heq.le
  rw [← ht] at hfront
  cases h with
  | full h hlength =>
    have hall : readGroups loose true 8 (t ++ []) = (gs, _, []) :=
      (h.relax loose).readGroups hlength.le endsGroups_nil true
    rw [List.append_nil, hfront] at hall
    cases hall
  | @short x' y' front' back' d' hx' hy' _ hlength =>
    have hlength : front'.length + back'.length ≤ 7 := hlength
    obtain ⟨hfront', hback'⟩ := readGroups_short (hx'.relax loose) (hy'.relax loose) (by omega)
    rw [hfront] at hfront'
    obtain ⟨rfl, rfl⟩ : front = front' ∧ y = y' := by simpa using hfront'
    rw [hback] at hback'
    obtain ⟨rfl, rfl⟩ : back = back' ∧ d = d' := by simpa using hback'
    omega

theorem IsForm.strict_iff : IsForm strict t a ↔ IsForm loose t a ∧ ¬ HasLeadingZero t ∧ ¬ HasEmptyRun t := by
  constructor
  · intro h
    refine ⟨h.relax loose, ?_⟩
    cases h with
    | v4 h =>
      refine ⟨h.not_hasLeadingZero, ?_⟩
      rintro ⟨x, y, -, -, -, rfl, -⟩
      exact h.colon_not_mem (by simp)
    | v6 h => exact ⟨h.not_hasLeadingZero, h.not_hasEmptyRun⟩
  · rintro ⟨h, hzero, hrun⟩
    cases h with
    | v4 h => exact .v4 (h.of_loose hzero)
    | v6 h => exact .v6 (h.of_loose hzero hrun)

end Address

end TunnelConf
