import TunnelConf.Proofs.Address.Dotted
import TunnelConf.Rule.Basic

/-!
# Numeric values

A numeric value is read digit by digit into 64 bits. What is read so far only grows in size, so a step leads out of
the range just if the whole number is out of it (`foldlM_pushDigit?`). Hence the reader knows every number that has
64 bits and no other (`int64?_eq_some_iff`). Main statement: `Rule.numeric_exact`.
-/

namespace TunnelConf

namespace Text

variable {isNegative : Bool} {c : Char} {d m n : Nat} {t ds : Text}

/-! ### What texts denote -/

/-- Digits after an optional sign, and the integer that they denote. -/
inductive IsInteger : Text → Int → Prop
  | plain {ds : Text} : ds ≠ [] → (∀ c ∈ ds, isDigit c = true) → IsInteger ds (Nat.ofDigitChars 10 ds 0)
  | plus {ds : Text} : ds ≠ [] → (∀ c ∈ ds, isDigit c = true) → IsInteger ('+' :: ds) (Nat.ofDigitChars 10 ds 0)
  | minus {ds : Text} : ds ≠ [] → (∀ c ∈ ds, isDigit c = true) → IsInteger ('-' :: ds) (-Nat.ofDigitChars 10 ds 0)

/-- A number of a given size. -/
def signed (isNegative : Bool) (n : Nat) : Int := if isNegative then -n else n

theorem valueOf_eq_ofDigitChars (h : ∀ c ∈ ds, isDigit c = true) : valueOf 10 ds = Nat.ofDigitChars 10 ds 0 := by
  unfold valueOf Nat.ofDigitChars
  refine List.foldl_ext _ _ 0 fun n c hc => ?_
  rw [digit?_of_isDigit (h c hc) (Nat.le_refl 10), Nat.mul_comm]
  rfl

theorem natural?_eq_some_iff :
    natural? t = some n ↔ t ≠ [] ∧ (∀ c ∈ t, isDigit c = true) ∧ n = Nat.ofDigitChars 10 t 0 := by
  unfold natural?
  split
  · next h =>
    simp only [Bool.or_eq_true, List.isEmpty_iff, Bool.not_eq_true', List.all_eq_false] at h
    constructor
    · rintro ⟨⟩
    · rintro ⟨hne, hd, -⟩
      rcases h with h | ⟨c, hc, hno⟩
      · exact absurd h hne
      · exact absurd (hd c hc) hno
  · next h =>
    simp only [Bool.or_eq_true, List.isEmpty_iff, Bool.not_eq_true', not_or, Bool.not_eq_false,
      List.all_eq_true] at h
    rw [Option.some_inj, valueOf_eq_ofDigitChars h.2, eq_comm]
    exact ⟨fun hn => ⟨h.1, h.2, hn⟩, fun hn => hn.2.2⟩

/-! ### Sixty-four bits -/

theorem toInt_ofInt {z : Int} (hlow : Int64.minValue.toInt ≤ z) (hhigh : z ≤ Int64.maxValue.toInt) :
    (Int64.ofInt z).toInt = z := by
  rw [Int64.toInt_minValue] at hlow
  rw [Int64.toInt_maxValue] at hhigh
  exact Int64.toInt_ofInt_of_le hlow (by omega)

theorem exactInt64?_eq_some_iff {z : Int} {k : Int64} : exactInt64? z = some k ↔ k.toInt = z := by
  unfold exactInt64?
  split
  · next h =>
    simp only [Bool.and_eq_true, decide_eq_true_eq] at h
    rw [Option.some_inj, ← Int64.toInt_inj, toInt_ofInt h.1 h.2, eq_comm]
  · next h =>
    simp only [Bool.and_eq_true, decide_eq_true_eq] at h
    constructor
    · rintro ⟨⟩
    · rintro rfl
      exact absurd ⟨k.minValue_le_toInt, k.toInt_le⟩ h

theorem exactInt64?_eq_none_iff {z : Int} :
    exactInt64? z = none ↔ z < Int64.minValue.toInt ∨ Int64.maxValue.toInt < z := by
  rw [Option.eq_none_iff_forall_ne_some]
  simp only [ne_eq, exactInt64?_eq_some_iff]
  constructor
  · intro h
    by_contra hin
    exact h (Int64.ofInt z) (toInt_ofInt (by omega) (by omega))
  · rintro h k rfl
    have hlow := k.minValue_le_toInt
    have hhigh := k.toInt_le
    omega

/-- What is out of the range stays out of it when it grows. -/
theorem exactInt64?_of_le (hle : m ≤ n) (h : exactInt64? (signed isNegative m) = none) :
    exactInt64? (signed isNegative n) = none := by
  rw [exactInt64?_eq_none_iff, Int64.toInt_minValue, Int64.toInt_maxValue] at h ⊢
  unfold signed at h ⊢
  cases isNegative with
  | false => simp only [Bool.false_eq_true, if_false] at h ⊢; omega
  | true => simp only [if_true] at h ⊢; omega

theorem pushDigit?_of_isDigit {k : Int64} (hk : k.toInt = signed isNegative m) (hc : isDigit c = true) :
    pushDigit? isNegative k c = exactInt64? (signed isNegative (10 * m + (c.toNat - '0'.toNat))) := by
  have hshift : k.toInt * 10 = signed isNegative (10 * m) := by
    rw [hk]
    unfold signed
    cases isNegative with
    | false => simp only [Bool.false_eq_true, if_false]; omega
    | true => simp only [if_true]; omega
  unfold pushDigit?
  rw [digit?_of_isDigit hc (Nat.le_refl 10), hshift]
  cases hs : exactInt64? (signed isNegative (10 * m)) with
  | none => exact (exactInt64?_of_le (Nat.le_add_right _ _) hs).symm
  | some shifted =>
    have hz := exactInt64?_eq_some_iff.1 hs
    show exactInt64? _ = _
    rw [hz]
    congr 1
    have hzero : '0'.toNat = 48 := rfl
    rw [hzero]
    cases isNegative with
    | false => simp [signed]
    | true => simp only [signed, if_true]; omega

theorem le_ofDigitChars (ds : Text) (m : Nat) : m ≤ Nat.ofDigitChars 10 ds m := by
  induction ds generalizing m with
  | nil => exact Nat.le_refl m
  | cons c ds ih =>
    rw [Nat.ofDigitChars_cons]
    exact Nat.le_trans (by omega) (ih _)

/-- Digits are read as the number that they denote with those in front, if that one has 64 bits. -/
theorem foldlM_pushDigit? {k : Int64} (hk : k.toInt = signed isNegative m) (h : ∀ c ∈ ds, isDigit c = true) :
    ds.foldlM (pushDigit? isNegative) k = exactInt64? (signed isNegative (Nat.ofDigitChars 10 ds m)) := by
  induction ds generalizing k m with
  | nil => exact (exactInt64?_eq_some_iff.2 hk).symm
  | cons c ds ih =>
    obtain ⟨hc, hds⟩ := List.forall_mem_cons.1 h
    rw [List.foldlM_cons, pushDigit?_of_isDigit hk hc, Nat.ofDigitChars_cons]
    cases hp : exactInt64? (signed isNegative (10 * m + (c.toNat - '0'.toNat))) with
    | none => exact (exactInt64?_of_le (le_ofDigitChars ds _) hp).symm
    | some k' => exact ih (exactInt64?_eq_some_iff.1 hp) hds

theorem isDigit_of_foldlM_pushDigit? {k k' : Int64} (h : t.foldlM (pushDigit? isNegative) k = some k') :
    ∀ c ∈ t, isDigit c = true := by
  induction t generalizing k with
  | nil => simp
  | cons c t ih =>
    rw [List.foldlM_cons] at h
    obtain ⟨next, hpush, hrest⟩ := Option.bind_eq_some_iff.1 h
    refine List.forall_mem_cons.2 ⟨?_, ih hrest⟩
    by_contra hc
    unfold pushDigit? at hpush
    rw [digit?_ten_of_not (Bool.eq_false_iff.2 hc)] at hpush
    obtain ⟨_, -, hpush⟩ := Option.bind_eq_some_iff.1 hpush
    cases hpush

theorem digitsInt64?_eq (isNegative : Bool) (t : Text) :
    digitsInt64? isNegative t = ((natural? t).map (signed isNegative)).bind exactInt64? := by
  unfold digitsInt64?
  by_cases hd : ∀ c ∈ t, isDigit c = true
  · cases t with
    | nil => rfl
    | cons c t =>
      rw [natural?_eq_some_iff.2 ⟨List.cons_ne_nil c t, hd, rfl⟩]
      exact foldlM_pushDigit? (by cases isNegative <;> rfl) hd
  · have hnone : natural? t = none := by
      rw [Option.eq_none_iff_forall_ne_some]
      intro n hn
      exact hd (natural?_eq_some_iff.1 hn).2.1
    rw [hnone, Option.map_none, Option.bind_none]
    split
    · rfl
    · rw [Option.eq_none_iff_forall_ne_some]
      intro k hk
      exact hd (isDigit_of_foldlM_pushDigit? hk)

/-- The 64-bit reader knows the integers of any size that have 64 bits, and reads them as they are. -/
theorem int64?_eq (t : Text) : int64? t = (integer? t).bind exactInt64? := by
  have hplain : signed false = Int.ofNat := rfl
  have hminus : signed true = fun n => -Int.ofNat n := rfl
  unfold int64? integer?
  split
  · rw [digitsInt64?_eq, hplain]
  · rw [digitsInt64?_eq, hminus]
  · rw [digitsInt64?_eq, hplain]

theorem integer?_eq_some_iff {z : Int} : integer? t = some z ↔ IsInteger t z := by
  constructor
  · intro h
    unfold integer? at h
    split at h <;> obtain ⟨n, hn, rfl⟩ := Option.map_eq_some_iff.1 h <;>
      obtain ⟨hne, hd, rfl⟩ := natural?_eq_some_iff.1 hn
    · exact .plus hne hd
    · exact .minus hne hd
    · exact .plain hne hd
  · intro h
    cases h with
    | plain hne hd =>
      unfold integer?
      split
      · exact absurd (hd '+' List.mem_cons_self) (by decide)
      · exact absurd (hd '-' List.mem_cons_self) (by decide)
      · rw [natural?_eq_some_iff.2 ⟨hne, hd, rfl⟩]
        rfl
    | plus hne hd => rw [integer?, natural?_eq_some_iff.2 ⟨hne, hd, rfl⟩]; rfl
    | minus hne hd => rw [integer?, natural?_eq_some_iff.2 ⟨hne, hd, rfl⟩]; rfl

theorem int64?_eq_some_iff {k : Int64} : int64? t = some k ↔ IsInteger t k.toInt := by
  rw [int64?_eq, Option.bind_eq_some_iff]
  constructor
  · rintro ⟨z, hz, hk⟩
    rw [exactInt64?_eq_some_iff.1 hk]
    exact integer?_eq_some_iff.1 hz
  · intro h
    exact ⟨_, integer?_eq_some_iff.2 h, exactInt64?_eq_some_iff.2 rfl⟩

end Text

namespace Rule

open Text

variable {v : Text}

theorem isNumeric_iff : isNumeric v = true ↔ ∃ z, IsInteger v z ∧ 0 ≤ z ∧ z ≤ 65535 := by
  have hrange (k : Int64) : (0 ≤ k && k ≤ 65535 : Bool) = true ↔ 0 ≤ k.toInt ∧ k.toInt ≤ 65535 := by
    rw [Bool.and_eq_true, decide_eq_true_eq, decide_eq_true_eq, Int64.le_iff_toInt_le, Int64.le_iff_toInt_le]
    rfl
  unfold isNumeric
  rw [Option.any_eq_true]
  constructor
  · rintro ⟨k, hk, hr⟩
    exact ⟨k.toInt, int64?_eq_some_iff.1 hk, (hrange k).1 hr⟩
  · rintro ⟨z, hz, hlow, hhigh⟩
    have hexact : (Int64.ofInt z).toInt = z := Int64.toInt_ofInt_of_le (by omega) (by omega)
    refine ⟨Int64.ofInt z, int64?_eq_some_iff.2 ?_, (hrange _).2 ?_⟩ <;> rw [hexact]
    · exact hz
    · exact ⟨hlow, hhigh⟩

/-- A numeric value is accepted just if it is digits after an optional sign that denote an integer from 0 to 65535, and
else one error is on the whole of it. Reading into 64 bits refuses the integers that have more and is exact on the
others, so the verdict is the one on integers of any size. -/
theorem numeric_exact (v : Text) (s : Span) :
    (numeric.validate v s = .accept ↔ ∃ z, IsInteger v z ∧ 0 ≤ z ∧ z ≤ 65535) ∧
    ((¬ ∃ z, IsInteger v z ∧ 0 ≤ z ∧ z ≤ 65535) →
      numeric.validate v s = .reject s .invalidNumericRange ∧
        (numeric.validate v s).errors = [.error s .invalidNumericRange]) ∧
    (∀ k : Int64, int64? v = some k ↔ IsInteger v k.toInt) ∧
    isNumeric v = (integer? v).any fun z => 0 ≤ z && z ≤ 65535 := by
  refine ⟨?_, fun hno => ?_, fun k => int64?_eq_some_iff, ?_⟩
  · rw [← isNumeric_iff, validate]
    cases isNumeric v <;> simp [Verdict.accept, Verdict.reject]
  · rw [← isNumeric_iff, Bool.not_eq_true] at hno
    rw [validate, hno]
    exact ⟨rfl, rfl⟩
  · rw [Bool.eq_iff_iff, isNumeric_iff, Option.any_eq_true]
    simp only [integer?_eq_some_iff, Bool.and_eq_true, decide_eq_true_eq]

example : isNumeric "-0".toList = true ∧ isNumeric "+00000000000000000000065535".toList = true := by decide

/-- The value of the digits is 2 ^ 64 and would be zero in 64 bits. -/
example : isNumeric "18446744073709551616".toList = false := by decide

end Rule

end TunnelConf
