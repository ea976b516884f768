import Mathlib.Data.Nat.Digits.Defs
import TunnelConf.Proofs.Grammar
import TunnelConf.Proofs.Key.Encoded

/-!
# The one base64 form of bytes

`Base64.IsForm` says by numbers what the base64 form of some bytes is: what they say in base 256 the symbols say
in base 64, up to the zeros that fill the last symbol up. Main statements: `Base64.isForm_iff`, bytes have one form,
the one that is written; `Base64.decode?_eq_some_iff`, reading takes that and nothing else. So what comes of
reading a key is told by its text (`Key.decode_exact`).
-/

namespace TunnelConf

open Text
open Nat (ofDigits)

namespace Base64

/-! ### Reading symbols -/

theorem toNat_lt_of_value? {c : Char} {n : Nat} (h : value? c = some n) : c.toNat < 128 := by
  have hc : isAlphanumeric c = true ∨ c = '+' ∨ c = '/' := by
    by_contra hne
    simp only [isAlphanumeric, Bool.or_eq_true, Bool.and_eq_true, decide_eq_true_eq, not_or] at hne
    obtain ⟨⟨⟨hdigit, hcapital⟩, hsmall⟩, hplus, hslash⟩ := hne
    rw [value?, if_neg hcapital, if_neg hsmall, if_neg hdigit, if_neg hplus, if_neg hslash] at h
    cases h
  rcases hc with hc | rfl | rfl
  · exact toNat_lt_of_isAlphanumeric hc
  · decide
  · decide

theorem value?_eq_some_iff {c : Char} {n : Nat} : value? c = some n ↔ n < 64 ∧ c = symbol n := by
  constructor
  · intro h
    have hall := forall_ascii (P := fun c => ∀ n ∈ value? c, n < 64 ∧ c = symbol n) (by decide)
      (toNat_lt_of_value? h)
    exact hall n h
  · rintro ⟨hn, rfl⟩
    exact value?_symbol hn

/-! ### Reading blocks -/

section Blocks
variable {p q r s : Char} {bytes : List UInt8}

theorem toNat_byte {n : Nat} (h : n < 256) : (UInt8.ofNat n).toNat = n := UInt8.toNat_ofNat_of_lt' h

theorem encode_of_decodeBlock? (h : decodeBlock? p q r s = some bytes) :
    ∃ a b c, bytes = [a, b, c] ∧ encode [a, b, c] = [p, q, r, s] := by
  simp only [decodeBlock?, Option.bind_eq_bind, Option.bind_eq_some_iff, Option.pure_def, Option.some.injEq] at h
  obtain ⟨w, hw, x, hx, y, hy, z, hz, rfl⟩ := h
  obtain ⟨hw, rfl⟩ := value?_eq_some_iff.1 hw
  obtain ⟨hx, rfl⟩ := value?_eq_some_iff.1 hx
  obtain ⟨hy, rfl⟩ := value?_eq_some_iff.1 hy
  obtain ⟨hz, rfl⟩ := value?_eq_some_iff.1 hz
  refine ⟨_, _, _, rfl, ?_⟩
  have ha : (UInt8.ofNat (w * 4 + x / 16)).toNat = w * 4 + x / 16 := toNat_byte (by omega)
  have hb : (UInt8.ofNat (x % 16 * 16 + y / 4)).toNat = x % 16 * 16 + y / 4 := toNat_byte (by omega)
  have hc : (UInt8.ofNat (y % 4 * 64 + z)).toNat = y % 4 * 64 + z := toNat_byte (by omega)
  have h₁ : (w * 4 + x / 16) / 4 = w := by omega
  have h₂ : (w * 4 + x / 16) % 4 * 16 + (x % 16 * 16 + y / 4) / 16 = x := by omega
  have h₃ : (x % 16 * 16 + y / 4) % 16 * 4 + (y % 4 * 64 + z) / 64 = y := by omega
  have h₄ : (y % 4 * 64 + z) % 64 = z := by omega
  rw [encode, ha, hb, hc, h₁, h₂, h₃, h₄, encode]

theorem encode_of_decodeLast? (h : decodeLast? p q r s = some bytes) : encode bytes = [p, q, r, s] := by
  rw [decodeLast?] at h
  split at h
  · next hs =>
    subst hs
    simp only [Option.bind_eq_bind, Option.bind_eq_some_iff, Option.pure_def] at h
    obtain ⟨w, hw, x, hx, h⟩ := h
    obtain ⟨hw, rfl⟩ := value?_eq_some_iff.1 hw
    obtain ⟨hx, rfl⟩ := value?_eq_some_iff.1 hx
    have ha : (UInt8.ofNat (w * 4 + x / 16)).toNat = w * 4 + x / 16 := toNat_byte (by omega)
    have h₁ : (w * 4 + x / 16) / 4 = w := by omega
    split at h
    · next hr =>
      split at h
      · next hzero =>
        obtain rfl := Option.some.inj h
        have h₂ : (w * 4 + x / 16) % 4 * 16 = x := by omega
        rw [encode, ha, h₁, h₂, hr]
      · cases h
    · obtain ⟨y, hy, hbytes⟩ := Option.bind_eq_some_iff.1 h
      obtain ⟨hy, rfl⟩ := value?_eq_some_iff.1 hy
      split at hbytes
      · next hzero =>
        obtain rfl := Option.some.inj hbytes
        have hb : (UInt8.ofNat (x % 16 * 16 + y / 4)).toNat = x % 16 * 16 + y / 4 :=
          toNat_byte (by omega)
        have h₂ : (w * 4 + x / 16) % 4 * 16 + (x % 16 * 16 + y / 4) / 16 = x := by omega
        have h₃ : (x % 16 * 16 + y / 4) % 16 * 4 = y := by omega
        rw [encode, ha, hb, h₁, h₂, h₃]
      · cases hbytes
  · obtain ⟨a, b, c, rfl, henc⟩ := encode_of_decodeBlock? h
    exact henc

end Blocks

theorem encode_cons_cons_cons (a b c : UInt8) (bytes : List UInt8) :
    encode (a :: b :: c :: bytes) = encode [a, b, c] ++ encode bytes := rfl

theorem encode_of_decode? {t : Text} {bytes : List UInt8} (h : decode? t = some bytes) : encode bytes = t := by
  fun_induction decode? t generalizing bytes with
  | case1 =>
    obtain rfl := Option.some.inj h
    rfl
  | case2 p q r s => exact encode_of_decodeLast? h
  | case3 p q r s t hne ih =>
    simp only [Option.bind_eq_bind, Option.bind_eq_some_iff, Option.pure_def, Option.some.injEq] at h
    obtain ⟨block, hblock, rest, hrest, rfl⟩ := h
    obtain ⟨a, b, c, rfl, henc⟩ := encode_of_decodeBlock? hblock
    show encode (a :: b :: c :: rest) = _
    rw [encode_cons_cons_cons, henc, ih hrest]
    rfl
  | case4 => cases h

/-- Reading takes what is written and nothing else. -/
theorem decode?_eq_some_iff {t : Text} {bytes : List UInt8} : decode? t = some bytes ↔ t = encode bytes := by
  constructor
  · intro h; exact (encode_of_decode? h).symm
  · rintro rfl; exact decode?_encode bytes

/-- The bits behind the last byte have to be zero. -/
example : decode? "AB==".toList = none := by decide

/-! ### The form -/

/-- The symbols with these numbers, and this much padding behind them, stand for the bytes: there are just enough
symbols of six bits each for the bits of the bytes, the bits left over are zero, and the padding fills the last four
characters up. -/
structure Fills (bytes : List UInt8) (digits : List Nat) (padding : Nat) : Prop where
  lt : ∀ d ∈ digits, d < 64
  enough : 8 * bytes.length ≤ 6 * digits.length
  needed : 6 * digits.length < 8 * bytes.length + 6
  number : ofDigits 64 digits.reverse =
    ofDigits 256 (bytes.map UInt8.toNat).reverse * 2 ^ (6 * digits.length - 8 * bytes.length)
  padding_lt : padding < 4
  fours : (digits.length + padding) % 4 = 0

/-- `t` is the base64 form of the bytes. -/
def IsForm (bytes : List UInt8) (t : Text) : Prop :=
  ∃ digits padding, Fills bytes digits padding ∧ t = digits.map symbol ++ List.replicate padding '='

theorem ofDigits_three (n p q r : Nat) : ofDigits n [p, q, r] = p + n * (q + n * r) := by
  simp [Nat.ofDigits_cons]

theorem ofDigits_four (n p q r s : Nat) : ofDigits n [p, q, r, s] = p + n * (q + n * (r + n * s)) := by
  simp [Nat.ofDigits_cons]

/-- Three bytes are four symbols, whatever comes behind them. -/
theorem Fills.cons {a b c : UInt8} {bytes : List UInt8} {w x y z padding : Nat} {digits : List Nat}
    (hw : w < 64) (hx : x < 64) (hy : y < 64) (hz : z < 64)
    (hnumber : z + 64 * (y + 64 * (x + 64 * w)) = c.toNat + 256 * (b.toNat + 256 * a.toNat))
    (h : Fills bytes digits padding) : Fills (a :: b :: c :: bytes) (w :: x :: y :: z :: digits) padding := by
  have henough := h.enough
  have hneeded := h.needed
  have hfours := h.fours
  have hspare : 6 * (digits.length + 4) - 8 * (bytes.length + 3) = 6 * digits.length - 8 * bytes.length := by omega
  have hpow : (64 : Nat) ^ digits.length = 256 ^ bytes.length * 2 ^ (6 * digits.length - 8 * bytes.length) := by
    calc (64 : Nat) ^ digits.length = 2 ^ (6 * digits.length) := by rw [pow_mul]; rfl
      _ = 2 ^ (8 * bytes.length + (6 * digits.length - 8 * bytes.length)) := by congr 1; omega
      _ = 256 ^ bytes.length * 2 ^ (6 * digits.length - 8 * bytes.length) := by rw [pow_add, pow_mul]; rfl
  refine ⟨?_, ?_, ?_, ?_, h.padding_lt, ?_⟩
  · simp only [List.forall_mem_cons]
    exact ⟨hw, hx, hy, hz, h.lt⟩
  · simp only [List.length_cons]; omega
  · simp only [List.length_cons]; omega
  · -- the last digits of a reversed list are the first ones, so they count most
    simp only [List.length_cons, List.map_cons, List.reverse_cons, List.append_assoc, List.cons_append,
      List.nil_append, Nat.ofDigits_append, List.length_reverse, List.length_map, ofDigits_three, ofDigits_four,
      hnumber, h.number, hspare, hpow]
    ring
  · simp only [List.length_cons]; omega

theorem isForm_encode (bytes : List UInt8) : IsForm bytes (encode bytes) := by
  fun_induction encode bytes with
  | case1 => exact ⟨[], 0, ⟨by simp, by simp, by simp, by simp, by simp, rfl⟩, rfl⟩
  | case2 a =>
    have ha := a.toNat_lt
    refine ⟨[a.toNat / 4, a.toNat % 4 * 16], 2, ⟨?_, by simp, by simp, ?_, by simp, by simp⟩, rfl⟩
    · simp only [List.forall_mem_cons, List.not_mem_nil, false_implies, forall_const, and_true]
      omega
    · simp [Nat.ofDigits_cons]
      omega
  | case3 a b =>
    have ha := a.toNat_lt
    have hb := b.toNat_lt
    refine ⟨[a.toNat / 4, a.toNat % 4 * 16 + b.toNat / 16, b.toNat % 16 * 4], 1,
      ⟨?_, by simp, by simp, ?_, by simp, by simp⟩, rfl⟩
    · simp only [List.forall_mem_cons, List.not_mem_nil, false_implies, forall_const, and_true]
      omega
    · simp [Nat.ofDigits_cons]
      omega
  | case4 a b c bytes ih =>
    have ha := a.toNat_lt
    have hb := b.toNat_lt
    have hc := c.toNat_lt
    obtain ⟨digits, padding, h, henc⟩ := ih
    refine ⟨_, padding, h.cons (w := a.toNat / 4) (x := a.toNat % 4 * 16 + b.toNat / 16)
      (y := b.toNat % 16 * 4 + c.toNat / 64) (z := c.toNat % 64) (by omega) (by omega) (by omega) (by omega)
      (by omega), ?_⟩
    rw [henc]
    rfl

/-- How many symbols there are is settled by how many bytes there are, and digits of one length by their number. -/
theorem Fills.unique {bytes : List UInt8} {digits digits' : List Nat} {padding padding' : Nat}
    (h : Fills bytes digits padding) (h' : Fills bytes digits' padding') : digits = digits' ∧ padding = padding' := by
  have hlength : digits.length = digits'.length := by
    have := h.enough
    have := h.needed
    have := h'.enough
    have := h'.needed
    omega
  have hpadding : padding = padding' := by
    have := h.fours
    have := h'.fours
    have := h.padding_lt
    have := h'.padding_lt
    omega
  have hnumber : ofDigits 64 digits.reverse = ofDigits 64 digits'.reverse := by
    rw [h.number, h'.number, hlength]
  have hreverse : digits.reverse = digits'.reverse :=
    Nat.ofDigits_inj_of_len_eq (by decide) (by simpa using hlength) (by simpa using h.lt) (by simpa using h'.lt)
      hnumber
  exact ⟨List.reverse_injective hreverse, hpadding⟩

/-- Bytes have one form, the one that is written. -/
theorem isForm_iff {bytes : List UInt8} {t : Text} : IsForm bytes t ↔ t = encode bytes := by
  constructor
  · rintro ⟨digits, padding, h, rfl⟩
    obtain ⟨digits', padding', h', henc⟩ := isForm_encode bytes
    obtain ⟨rfl, rfl⟩ := h.unique h'
    exact henc.symm
  · rintro rfl
    exact isForm_encode bytes

end Base64

/-! ### Keys -/

namespace Key

variable {s : Text}

theorem decode_of_decode? {bytes : List UInt8} (h : Base64.decode? (trim s) = some bytes) :
    decode s = ofBytes bytes := by
  rw [decode, h]

theorem ofBytes_eq_ok_iff {bytes : List UInt8} {k : Key} : ofBytes bytes = .ok k ↔ bytes = k.bytes := by
  constructor
  · intro h
    rw [ofBytes] at h
    split at h
    · obtain rfl := Except.ok.inj h
      rfl
    · cases h
  · rintro rfl
    exact dif_pos k.length_eq

theorem ofBytes_eq_error_iff {bytes : List UInt8} {e : KeyError} :
    ofBytes bytes = .error e ↔ bytes.length ≠ 32 ∧ e = .wrongLength bytes.length := by
  rw [ofBytes]
  split
  · next h => simp [h]
  · next h => simp [h, eq_comm]

/-- Either the text has no base64 form of bytes in it, or it is read as the bytes that it is the form of. -/
theorem decode_cases (s : Text) :
    (decode s = .error .notBase64 ∧ ∀ bytes, ¬ Base64.IsForm bytes (trim s)) ∨
      ∃ bytes, Base64.IsForm bytes (trim s) ∧ decode s = ofBytes bytes ∧
        ∀ bytes', Base64.IsForm bytes' (trim s) → bytes' = bytes := by
  have hform : ∀ bytes, Base64.IsForm bytes (trim s) ↔ Base64.decode? (trim s) = some bytes := fun bytes =>
    Base64.isForm_iff.trans Base64.decode?_eq_some_iff.symm
  simp only [hform]
  cases h : Base64.decode? (trim s) with
  | none => exact .inl ⟨by rw [decode, h], by simp⟩
  | some bytes => exact .inr ⟨bytes, rfl, decode_of_decode? h, fun _ h' => (Option.some.inj h').symm⟩

/-! ### Main statement -/

/-- A text is read as a key just if, without the white space around it, it is the base64 form of that key. It has
the wrong length just if it is the form of some other number of bytes, and is no base64 just if it is the form of
none. -/
theorem decode_exact (s : Text) :
    (∀ k : Key, decode s = .ok k ↔ trim s = k.encode) ∧
    (∀ k : Key, Base64.IsForm k.bytes k.encode ∧ decode k.encode = .ok k) ∧
    (∀ s', trim s ≠ trim s' → ∀ k, ¬ (decode s = .ok k ∧ decode s' = .ok k)) ∧
    (∀ n, decode s = .error (.wrongLength n) ↔
      n ≠ 32 ∧ ∃ bytes, bytes.length = n ∧ Base64.IsForm bytes (trim s)) ∧
    (decode s = .error .notBase64 ↔ ∀ bytes, ¬ Base64.IsForm bytes (trim s)) := by
  have hok : ∀ s k, decode s = .ok k ↔ trim s = k.encode := by
    intro s k
    rw [encode, ← Base64.isForm_iff]
    rcases decode_cases s with ⟨hd, hno⟩ | ⟨bytes, hform, hd, honly⟩
    · simp [hd, hno]
    · rw [hd, ofBytes_eq_ok_iff]
      exact ⟨fun h => h ▸ hform, fun h => (honly _ h).symm⟩
  refine ⟨hok s, fun k => ⟨Base64.isForm_encode k.bytes, k.decode_encode⟩, ?_, fun n => ?_, ?_⟩
  · rintro s' hne k ⟨h, h'⟩
    exact hne (((hok s k).1 h).trans ((hok s' k).1 h').symm)
  · rcases decode_cases s with ⟨hd, hno⟩ | ⟨bytes, hform, hd, honly⟩
    · simp [hd, hno]
    · rw [hd, ofBytes_eq_error_iff, KeyError.wrongLength.injEq]
      constructor
      · rintro ⟨hlength, rfl⟩
        exact ⟨hlength, bytes, rfl, hform⟩
      · rintro ⟨hlength, bytes', rfl, hform'⟩
        obtain rfl := honly bytes' hform'
        exact ⟨hlength, rfl⟩
  · rcases decode_cases s with ⟨hd, hno⟩ | ⟨bytes, hform, hd, -⟩
    · simp [hd, hno]
    · rw [hd, ofBytes_eq_error_iff]
      constructor
      · rintro ⟨-, h⟩
        cases h
      · intro hno
        exact absurd hform (hno bytes)

end Key

end TunnelConf
