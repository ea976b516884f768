import Mathlib.Data.Nat.Digits.Defs
import TunnelConf.Proofs.Key.Base64Form

/-!
# Generated pairs

What clamping does is said of the number of a key: `Key.toNat_clamp` keeps the bits from the third up to the
254th and puts a one behind them. So a key that is clamped stays as it is, and the public key is that of the
clamped key. Main statement: `KeyPair.generateMany_exact`, about the pairs that are drawn from a stream.
-/

namespace TunnelConf

open Text
open Nat (ofDigits)

/-! ### Clamping -/

namespace Key

theorem toNat_eq_ofDigits (k : Key) : k.toNat = ofDigits 256 (k.bytes.map UInt8.toNat) := by
  rw [toNat, Nat.ofDigits_eq_foldr, List.foldr_map]
  rfl

theorem toNat_inj {k l : Key} : k.toNat = l.toNat ↔ k = l := by
  constructor
  · intro h
    rw [toNat_eq_ofDigits, toNat_eq_ofDigits] at h
    have hlt : ∀ bytes : List UInt8, ∀ d ∈ bytes.map UInt8.toNat, d < 256 := by
      intro bytes d hd
      obtain ⟨b, -, rfl⟩ := List.mem_map.1 hd
      exact b.toNat_lt
    have hlength : (k.bytes.map UInt8.toNat).length = (l.bytes.map UInt8.toNat).length := by
      rw [List.length_map, List.length_map, k.length_eq, l.length_eq]
    have hmap := Nat.ofDigits_inj_of_len_eq (by decide) hlength (hlt _) (hlt _) h
    have hbytes := List.map_injective_iff.2 (fun _ _ => UInt8.toNat_inj.1) hmap
    cases k
    cases l
    congr
  · rintro rfl
    rfl

theorem bytes_clamp (k : Key) : k.clamp.bytes = k.bytes.mapIdx fun i b =>
    if i = 0 then b &&& 248 else if i = 31 then b &&& 127 ||| 64 else b := rfl

/-- Only the first byte and the last one are changed. -/
theorem exists_bytes_clamp (k : Key) : ∃ a mid z, mid.length = 30 ∧ k.bytes = a :: (mid ++ [z]) ∧
    k.clamp.bytes = (a &&& 248) :: (mid ++ [z &&& 127 ||| 64]) := by
  obtain ⟨a, rest, hrest⟩ := List.exists_cons_of_length_eq_add_one k.length_eq
  have hlength : rest.length = 31 := by simpa [hrest] using k.length_eq
  rcases List.eq_nil_or_concat rest with rfl | ⟨mid, z, rfl⟩
  · cases hlength
  have hmid : mid.length = 30 := by simpa using hlength
  rw [List.concat_eq_append] at hrest
  refine ⟨a, mid, z, hmid, hrest, ?_⟩
  rw [bytes_clamp, hrest, List.mapIdx_cons, List.mapIdx_concat, hmid]
  have hsame : (mid.mapIdx fun i b => if i + 1 = 0 then b &&& 248 else if i + 1 = 31 then b &&& 127 ||| 64 else b) =
      mid := by
    refine List.ext_getElem (by simp) fun i hi hi' => ?_
    rw [List.getElem_mapIdx, if_neg (by omega), if_neg (by omega)]
  rw [hsame]
  rfl

theorem toNat_and_or_byte (b : UInt8) :
    (b &&& 248).toNat = b.toNat / 8 * 8 ∧ (b &&& 127 ||| 64).toNat = 64 + b.toNat % 64 := by
  have hall : ∀ n ∈ List.range 256, n &&& 248 = n / 8 * 8 ∧ n &&& 127 ||| 64 = 64 + n % 64 := by
    decide +kernel
  rw [UInt8.toNat_or, UInt8.toNat_and, UInt8.toNat_and]
  exact hall b.toNat (List.mem_range.2 b.toNat_lt)

/-- A clamped key is `2 ^ 254` and a multiple of eight below that. -/
theorem toNat_clamp (k : Key) : k.clamp.toNat = 2 ^ 254 + k.toNat / 8 % 2 ^ 251 * 8 := by
  obtain ⟨a, mid, z, hmid, hbytes, hclamp⟩ := k.exists_bytes_clamp
  obtain ⟨hfirst, -⟩ := toNat_and_or_byte a
  obtain ⟨-, hlast⟩ := toNat_and_or_byte z
  have ha := a.toNat_lt
  have hz := z.toNat_lt
  have hm : ofDigits 256 (mid.map UInt8.toNat) < 256 ^ 30 := by
    rw [← hmid, ← List.length_map UInt8.toNat]
    refine Nat.ofDigits_lt_base_pow_length (by decide) fun d hd => ?_
    obtain ⟨b, -, rfl⟩ := List.mem_map.1 hd
    exact b.toNat_lt
  rw [toNat_eq_ofDigits, toNat_eq_ofDigits, hbytes, hclamp]
  simp only [List.map_cons, List.map_append, List.map_nil, Nat.ofDigits_cons, Nat.ofDigits_append,
    Nat.ofDigits_nil, List.length_map, hmid, hfirst, hlast]
  omega

theorem clamp_clamp (k : Key) : k.clamp.clamp = k.clamp := by
  rw [← toNat_inj, toNat_clamp, toNat_clamp]
  omega

theorem derivePublic_clamp (k : Key) : k.clamp.derivePublic = k.derivePublic := by
  rw [derivePublic, clamp_clamp, derivePublic]

/-! ### Public keys of bytes -/

theorem ofBytes_bytes (k : Key) : ofBytes k.bytes = .ok k := dif_pos k.length_eq

theorem publicFor_bytes (k : Key) : publicFor k.bytes = .ok k.derivePublic := by
  rw [publicFor, ofBytes_bytes]
  rfl

theorem publicFor_eq_error_iff {bytes : List UInt8} {e : KeyError} :
    publicFor bytes = .error e ↔ bytes.length ≠ 32 ∧ e = .wrongLength bytes.length := by
  rw [← ofBytes_eq_error_iff, publicFor]
  cases ofBytes bytes with
  | ok k => exact ⟨nofun, nofun⟩
  | error e' => exact Iff.rfl

/-- White space around a key does not matter. -/
theorem decode_of_isSpace {front back : Text} (hfront : ∀ c ∈ front, isSpace c = true)
    (hback : ∀ c ∈ back, isSpace c = true) (k : Key) : decode (front ++ k.encode ++ back) = .ok k := by
  have htrim : trim (front ++ k.encode ++ back) = k.encode := by
    rw [trim_append_right_of_all hback, trim_append_of_all hfront, trim_eq_self_iff.2 k.trimmed_encode]
  rw [decode, htrim, encode, Base64.decode?_encode]
  exact ofBytes_bytes k

end Key

/-! ### Pairs -/

namespace KeyPair

/-- What a pair is that was made from random bytes. -/
structure MadeFrom (k : Key) (p : KeyPair) : Prop where
  secret : p.secret = k.clamp
  clamped : p.secret.clamp = p.secret
  decode : ∀ front back, (∀ c ∈ front, isSpace c = true) → (∀ c ∈ back, isSpace c = true) →
    KeyPair.decode (front ++ p.secret.encode ++ back) = .ok p
  publicKey : p.publicKey = .ofNat (Curve25519.scalarMul p.secret.toNat Curve25519.base)
  publicFor : Key.publicFor k.bytes = .ok p.publicKey
  publicFor_clamp : Key.publicFor k.clamp.bytes = .ok p.publicKey

theorem madeFrom_clamp (k : Key) : MadeFrom k ⟨k.clamp⟩ where
  secret := rfl
  clamped := k.clamp_clamp
  decode front back hfront hback := by
    rw [KeyPair.decode, Key.decode_of_isSpace hfront hback]
    rfl
  publicKey := by
    show k.clamp.derivePublic = _
    rw [Key.derivePublic, k.clamp_clamp]
  publicFor := by
    rw [Key.publicFor_bytes, ← k.derivePublic_clamp]
    rfl
  publicFor_clamp := by
    rw [Key.publicFor_bytes]
    rfl

/-- Each pair takes 32 bytes, and the next one those behind them. -/
theorem generateMany_eq (r : RandomStream) (n : Nat) : generateMany n r =
    ((List.range n).map fun i => (generate (r.advance (32 * i))).1, r.advance (32 * n)) := by
  induction n generalizing r with
  | zero => rfl
  | succ n ih =>
    have hadvance : ∀ i, (r.advance 32).advance (32 * i) = r.advance (32 * (i + 1)) := by
      intro i
      rw [RandomStream.advance_advance, Nat.mul_succ, Nat.add_comm]
    have hnext : (generate r).2 = r.advance 32 := rfl
    rw [generateMany, List.range_succ_eq_map, List.map_cons, List.map_map]
    simp only [hnext, ih, hadvance]
    rfl

/-! ### Main statement -/

/-- The pairs that are drawn one after the other are made from the next bytes of the stream, 32 for each. Clamping
keeps 251 bits of a key; before it and behind it the key has the same public key, and bytes have none just if they
are not 32. -/
theorem generateMany_exact (r : RandomStream) (n : Nat) :
    (generateMany n r).2 = r.advance (32 * n) ∧ (generateMany n r).1.length = n ∧
    (∀ i < n, ∃ k p, k.bytes = (r.advance (32 * i)).next 32 ∧ (generateMany n r).1[i]? = some p ∧ MadeFrom k p) ∧
    (∀ k : Key, k.clamp.toNat = 2 ^ 254 + k.toNat / 8 % 2 ^ 251 * 8) ∧
    (∀ k : Key, Key.publicFor k.bytes = Key.publicFor k.clamp.bytes) ∧
    ∀ bytes e, Key.publicFor bytes = .error e ↔ bytes.length ≠ 32 ∧ e = .wrongLength bytes.length := by
  refine ⟨?_, ?_, ?_, Key.toNat_clamp, ?_, fun _ _ => Key.publicFor_eq_error_iff⟩
  · rw [generateMany_eq]
  · rw [generateMany_eq, List.length_map, List.length_range]
  · intro i hi
    refine ⟨⟨(r.advance (32 * i)).next 32, RandomStream.length_next _ _⟩, _, rfl, ?_, madeFrom_clamp _⟩
    rw [generateMany_eq, List.getElem?_map, List.getElem?_range hi]
    rfl
  · intro k
    rw [Key.publicFor_bytes, Key.publicFor_bytes, k.derivePublic_clamp]

end KeyPair

end TunnelConf
