import TunnelConf.Address.Basic
import TunnelConf.Proofs.Text.Parts

/-!
# Numerals and dotted addresses

What the readers for numbers, octets and four octets take from the front of a text, each said as a form of texts:
`Address.Numeral`, `Address.IsOctet`, `Address.IsV4`. A reader takes all digits that there are, so a form is read
just if no digit follows it (`readNumber?_eq_some_iff`, `readOctet?_eq_some_iff`, `readV4?_eq_some_iff`).
-/

namespace TunnelConf

open Text

/-! ### Digits -/

namespace Text

def isDigitIn (base : Nat) (c : Char) : Bool := (digit? base c).isSome

theorem digit?_of_isDigit {base : Nat} {c : Char} (h : isDigit c = true) (hbase : 10 ≤ base) :
    digit? base c = some (c.toNat - 48) := by
  have hle : c.toNat ≤ 57 := by
    simp only [isDigit, Bool.and_eq_true, decide_eq_true_eq] at h
    exact h.2
  have hlt : c.toNat - 48 < base := by omega
  have hvalue : digit? base c = if c.toNat - 48 < base then some (c.toNat - 48) else none := by
    rw [isDigit] at h
    rw [digit?, if_pos h]
    rfl
  rw [hvalue, if_pos hlt]

theorem digit?_ten_of_not {c : Char} (h : isDigit c = false) : digit? 10 c = none := by
  rw [isDigit] at h
  rw [digit?, h, if_neg Bool.false_ne_true]
  refine if_neg (Nat.not_lt.2 ?_)
  split
  · exact Nat.le_add_left 10 _
  · split
    · exact Nat.le_add_left 10 _
    · decide

theorem isDigitIn_ten (c : Char) : isDigitIn 10 c = isDigit c := by
  rw [isDigitIn]
  cases h : isDigit c with
  | true => rw [digit?_of_isDigit h (Nat.le_refl 10)]; rfl
  | false => rw [digit?_ten_of_not h]; rfl

theorem isDigitIn_sixteen_of_isDigit {c : Char} (h : isDigit c = true) : isDigitIn 16 c = true := by
  rw [isDigitIn, digit?_of_isDigit h (by decide)]
  rfl

theorem isAlphanumeric_of_isDigit {c : Char} (h : isDigit c = true) : isAlphanumeric c = true := by
  rw [isDigit] at h
  rw [isAlphanumeric, h]
  rfl

theorem utf8Size_of_isDigit {c : Char} (h : isDigit c = true) : c.utf8Size = 1 := by
  simp only [isDigit, Bool.and_eq_true, decide_eq_true_eq] at h
  exact Char.utf8Size_eq_one_iff.2 (Char.le_trans h.2 (by decide : '9' ≤ '\x7f'))

end Text

namespace Address

variable {s : Style} {base width bound n : Nat} {c : Char} {t x y r : Text}

/-! ### Numerals -/

/-- Digits that denote `n`, with the bounds that a reader sets for their number and for `n`. -/
structure Numeral (base width bound : Nat) (x : Text) (n : Nat) : Prop where
  digits : ∀ c ∈ x, isDigitIn base c = true
  ne_nil : x ≠ []
  length_le : x.length ≤ width
  value : valueOf base x = n
  lt : n < bound

theorem expect?_eq_some_iff : expect? c t = some r ↔ t = c :: r := by
  cases t with
  | nil => exact ⟨nofun, nofun⟩
  | cons d t =>
    rw [expect?]
    split
    · next h => simp [h]
    · next h => simp [h]

@[simp] theorem expect?_cons_self (c : Char) (t : Text) : expect? c (c :: t) = some t := expect?_eq_some_iff.2 rfl

theorem readNumber?_eq_some_iff : readNumber? base width bound t = some (n, r) ↔
    ∃ x, t = x ++ r ∧ Numeral base width bound x n ∧ Stops (isDigitIn base) r := by
  have hdigit : (fun c => (digit? base c).isSome) = isDigitIn base := rfl
  simp only [readNumber?, hdigit]
  constructor
  · intro h
    split at h
    · cases h
    · next hno =>
      simp only [Bool.or_eq_true, List.isEmpty_iff, decide_eq_true_eq, not_or, not_lt] at hno
      obtain ⟨⟨hne, hlength⟩, hlt⟩ := hno
      simp only [Option.some.injEq, Prod.mk.injEq] at h
      obtain ⟨rfl, rfl⟩ := h
      refine ⟨_, List.takeWhile_append_dropWhile.symm, ⟨fun _ hc => List.mem_takeWhile_imp hc, hne, hlength, rfl, ?_⟩,
        stops_dropWhile _ t⟩
      omega
  · rintro ⟨x, rfl, h, hr⟩
    rw [takeWhile_append_of_stops h.digits hr, dropWhile_append_of_stops h.digits hr, h.value, if_neg]
    have hne := h.ne_nil
    have hlength := h.length_le
    have hlt := h.lt
    simp only [Bool.or_eq_true, List.isEmpty_iff, decide_eq_true_eq, not_or, not_lt]
    exact ⟨⟨hne, hlength⟩, by omega⟩

theorem readNumber?_eq_none (h : Stops (isDigitIn base) t) : readNumber? base width bound t = none := by
  rw [Option.eq_none_iff_forall_ne_some]
  rintro ⟨n, r⟩ hread
  obtain ⟨x, rfl, hx, -⟩ := readNumber?_eq_some_iff.1 hread
  obtain ⟨c, x, rfl⟩ := List.exists_cons_of_ne_nil hx.ne_nil
  have hc := hx.digits c List.mem_cons_self
  rw [stops_cons.1 h] at hc
  cases hc

/-! ### Octets -/

/-- Up to three digits of a number below 256, without a zero in front of others in the strict style. -/
structure IsOctet (s : Style) (x : Text) (n : Nat) : Prop where
  numeral : Numeral 10 3 256 x n
  zero : s.leadingZeros = false → x.head? = some '0' → x.length ≤ 1

theorem readOctet?_eq_some_iff : readOctet? s t = some (n, r) ↔
    ∃ x, t = x ++ r ∧ IsOctet s x n ∧ Stops isDigit r := by
  have hdigit : isDigitIn 10 = isDigit := funext isDigitIn_ten
  have htake : ∀ x, Numeral 10 3 256 x n → Stops isDigit r → (x ++ r).takeWhile isDigit = x := by
    intro x hx hr
    exact takeWhile_append_of_stops (hdigit ▸ hx.digits) hr
  rw [readOctet?]
  constructor
  · intro h
    split at h
    · cases h
    · next hno =>
      obtain ⟨x, rfl, hx, hr⟩ := readNumber?_eq_some_iff.1 h
      rw [hdigit] at hr
      rw [htake x hx hr] at hno
      refine ⟨x, rfl, ⟨hx, fun hs hhead => ?_⟩, hr⟩
      simpa [hs, hhead] using hno
  · rintro ⟨x, rfl, hx, hr⟩
    rw [htake x hx.numeral hr, if_neg]
    · exact readNumber?_eq_some_iff.2 ⟨x, rfl, hx.numeral, hdigit ▸ hr⟩
    · intro h
      simp only [Bool.and_eq_true, Bool.not_eq_true', decide_eq_true_eq] at h
      have := hx.zero h.1.1 h.2
      omega

/-! ### Four octets -/

/-- Four octets with points between them. -/
inductive IsV4 (s : Style) : Text → List Nat → Prop
  | mk {x y z w : Text} {a b c d : Nat} (hx : IsOctet s x a) (hy : IsOctet s y b) (hz : IsOctet s z c)
    (hw : IsOctet s w d) : IsV4 s (x ++ '.' :: (y ++ '.' :: (z ++ '.' :: w))) [a, b, c, d]

theorem IsOctet.digits (h : IsOctet s x n) : ∀ c ∈ x, isDigit c = true := fun c hc =>
  (isDigitIn_ten c).symm.trans (h.numeral.digits c hc)

/-- The strict style is stricter than all others. -/
theorem IsOctet.relax (h : IsOctet strict x n) (s : Style) : IsOctet s x n := ⟨h.numeral, fun _ => h.zero rfl⟩

theorem IsV4.relax {octets : List Nat} (h : IsV4 strict x octets) (s : Style) : IsV4 s x octets := by
  obtain ⟨hx, hy, hz, hw⟩ := h
  exact ⟨hx.relax s, hy.relax s, hz.relax s, hw.relax s⟩

theorem IsOctet.read (h : IsOctet s x n) (hr : Stops isDigit r) : readOctet? s (x ++ r) = some (n, r) :=
  readOctet?_eq_some_iff.2 ⟨x, rfl, h, hr⟩

theorem readV4?_eq_some_iff {octets : List Nat} : readV4? s t = some (octets, r) ↔
    ∃ x, t = x ++ r ∧ IsV4 s x octets ∧ Stops isDigit r := by
  constructor
  · intro h
    simp only [readV4?, Option.bind_eq_bind, Option.bind_eq_some_iff, Option.pure_def, Option.some.injEq,
      Prod.mk.injEq, Prod.exists, readOctet?_eq_some_iff, expect?_eq_some_iff] at h
    obtain ⟨a, _, ⟨x, rfl, hx, -⟩, _, rfl, b, _, ⟨y, rfl, hy, -⟩, _, rfl, c, _, ⟨z, rfl, hz, -⟩, _, rfl, d, _,
      ⟨w, rfl, hw, hr⟩, rfl, rfl⟩ := h
    exact ⟨_, by simp, .mk hx hy hz hw, hr⟩
  · rintro ⟨_, rfl, ⟨hx, hy, hz, hw⟩, hr⟩
    have hpoint : ∀ t, Stops isDigit ('.' :: t) := fun t => stops_cons.2 (by decide)
    simp only [readV4?, List.append_assoc, List.cons_append, hx.read (hpoint _), hy.read (hpoint _),
      hz.read (hpoint _), hw.read hr, expect?_cons_self, Option.bind_eq_bind, Option.bind_some, Option.pure_def]

/-- A digit of a group or a point between octets. -/
def isGroupChar (c : Char) : Bool := isDigitIn 16 c || c == '.'

theorem stops_isDigitIn (h : Stops isGroupChar r) : Stops (isDigitIn 16) r := fun c hc =>
  (Bool.or_eq_false_iff.1 (h c hc)).1

theorem stops_isDigit (h : Stops isGroupChar r) : Stops isDigit r := fun c hc => by
  rw [Bool.eq_false_iff]
  intro hdigit
  have := stops_isDigitIn h c hc
  rw [isDigitIn_sixteen_of_isDigit hdigit] at this
  cases this

/-- Digits that are followed by neither a digit nor a point are no octet of an address. -/
theorem readV4?_eq_none (hx : ∀ c ∈ x, isDigitIn 16 c = true) (hr : Stops isGroupChar r) :
    readV4? s (x ++ r) = none := by
  rw [Option.eq_none_iff_forall_ne_some]
  rintro ⟨octets, rest⟩ h
  obtain ⟨_, heq, @⟨y, _, _, _, _, _, _, _, hy, -, -, -⟩, -⟩ := readV4?_eq_some_iff.1 h
  have hdigits : ∀ c ∈ y, isDigitIn 16 c = true := fun c hc => isDigitIn_sixteen_of_isDigit (hy.digits c hc)
  have hstop := stops_isDigitIn hr
  -- both begin with as many digits, so the point is what follows them
  rw [List.append_assoc, List.cons_append] at heq
  have hdrop := congrArg (List.dropWhile (isDigitIn 16)) heq
  rw [dropWhile_append_of_stops hx hstop, dropWhile_append_of_stops hdigits (stops_cons.2 (by decide))] at hdrop
  rw [hdrop] at hr
  exact absurd (stops_cons.1 hr) (by decide)

end Address

end TunnelConf
