import TunnelConf.Text.Utf8

/-!
# Texts read back from their bytes

What is read from the UTF-8 form of a text is the text (`ofUtf8?_utf8`): one lemma for each number of
bytes that a character can have.
-/

namespace TunnelConf.Text

/-! ### Bytes -/

theorem ofNat_lt_iff {n k : Nat} (hn : n < 256) (hk : k < 256) :
    UInt8.ofNat n < (OfNat.ofNat k : UInt8) ↔ n < k :=
  UInt8.ofNat_lt_iff_lt hn hk

theorem continuation?_ofNat {k : Nat} (h : k < 64) : continuation? (UInt8.ofNat (k + 128)) = some k := by
  have hk : k + 128 < 256 := by omega
  have hlow : (0x80 : UInt8) ≤ UInt8.ofNat (k + 128) := by
    rw [← UInt8.not_lt, ofNat_lt_iff hk (by decide)]
    exact Nat.not_lt.2 (Nat.le_add_left 128 k)
  have hhigh : UInt8.ofNat (k + 128) < 0xC0 := by
    rw [ofNat_lt_iff hk (by decide)]
    exact Nat.add_lt_add_right h 128
  rw [continuation?, if_pos ⟨hlow, hhigh⟩, UInt8.toNat_ofNat_of_lt' hk]
  show some (k + 128 - 128) = some k
  rw [Nat.add_sub_cancel]

theorem scalar?_toNat {least : Nat} {c : Char} (h : least ≤ c.toNat) : scalar? least c.toNat = some c := by
  rw [scalar?, if_pos ⟨h, c.valid⟩, Char.ofNat_toNat]

/-! ### One character -/

section Forms
variable {n y z w : Nat} {bs : List UInt8}

theorem ofUtf8?_one (hn : n < 0x80) :
    ofUtf8? (UInt8.ofNat n :: bs) = (ofUtf8? bs).map (Char.ofNat n :: ·) := by
  have hlt : n < 256 := by omega
  rw [ofUtf8?.eq_def]
  simp (disch := decide) only [ofNat_lt_iff hlt, UInt8.toNat_ofNat_of_lt' hlt]
  rw [if_pos hn]

theorem ofUtf8?_two (h₁ : 0xC0 ≤ n) (h₂ : n < 0xE0) (hy : y < 64) :
    ofUtf8? (UInt8.ofNat n :: UInt8.ofNat (y + 128) :: bs) =
      (scalar? 0x80 ((n - 0xC0) * 64 + y)).bind fun ch => (ofUtf8? bs).map (ch :: ·) := by
  have hlt : n < 256 := by omega
  rw [ofUtf8?.eq_def]
  simp (disch := decide) only [ofNat_lt_iff hlt, UInt8.toNat_ofNat_of_lt' hlt, continuation?_ofNat hy,
    Option.bind_some]
  rw [if_neg (by omega), if_pos h₂]
  simp only [Nat.not_lt.2 h₁, if_false]

theorem ofUtf8?_three (h₁ : 0xE0 ≤ n) (h₂ : n < 0xF0) (hy : y < 64) (hz : z < 64) :
    ofUtf8? (UInt8.ofNat n :: UInt8.ofNat (y + 128) :: UInt8.ofNat (z + 128) :: bs) =
      (scalar? 0x800 ((n - 0xE0) * 4096 + y * 64 + z)).bind fun ch => (ofUtf8? bs).map (ch :: ·) := by
  have hlt : n < 256 := by omega
  rw [ofUtf8?.eq_def]
  simp (disch := decide) only [ofNat_lt_iff hlt, UInt8.toNat_ofNat_of_lt' hlt, continuation?_ofNat hy,
    continuation?_ofNat hz, Option.bind_some]
  rw [if_neg (by omega), if_neg (by omega), if_pos h₂]

theorem ofUtf8?_four (h₁ : 0xF0 ≤ n) (h₂ : n < 256) (hy : y < 64) (hz : z < 64) (hw : w < 64) :
    ofUtf8? (UInt8.ofNat n :: UInt8.ofNat (y + 128) :: UInt8.ofNat (z + 128) :: UInt8.ofNat (w + 128) :: bs) =
      (scalar? 0x10000 ((n - 0xF0) * 262144 + y * 4096 + z * 64 + w)).bind fun ch =>
        (ofUtf8? bs).map (ch :: ·) := by
  -- By single rewrites: behind a simp under the binders the kernel takes the product by 262144 apart.
  have hge : ∀ k ≤ 240, ¬ UInt8.ofNat n < (OfNat.ofNat k : UInt8) := by
    intro k hk
    rw [ofNat_lt_iff h₂ (by omega)]
    omega
  rw [ofUtf8?, if_neg (hge 0x80 (by decide)), continuation?_ofNat hy, Option.bind_some,
    if_neg (hge 0xE0 (by decide))]
  dsimp only
  rw [continuation?_ofNat hz, Option.bind_some, if_neg (hge 0xF0 (by decide)), continuation?_ofNat hw,
    Option.bind_some, UInt8.toNat_ofNat_of_lt' h₂]

end Forms

theorem toNat_lt_of_char (c : Char) : c.toNat < 0x110000 := by
  rcases c.valid with h | ⟨-, h⟩
  · exact Nat.lt_trans h (by decide)
  · exact h

theorem ofUtf8?_char_append (c : Char) (bs : List UInt8) :
    ofUtf8? (String.utf8EncodeChar c ++ bs) = (ofUtf8? bs).map (c :: ·) := by
  have hlt := toNat_lt_of_char c
  have hval : c.val.toNat = c.toNat := rfl
  simp only [String.utf8EncodeChar, hval]
  split
  · rw [List.singleton_append, ofUtf8?_one (by omega), Char.ofNat_toNat]
  split
  · have hn : (c.toNat / 64 % 32 + 192 - 192) * 64 + c.toNat % 64 = c.toNat := by omega
    show ofUtf8? (_ :: _ :: bs) = _
    rw [ofUtf8?_two (by omega) (by omega) (by omega), hn, scalar?_toNat (by omega), Option.bind_some]
  split
  · have hn : (c.toNat / 4096 % 16 + 224 - 224) * 4096 + c.toNat / 64 % 64 * 64 + c.toNat % 64 = c.toNat := by
      omega
    show ofUtf8? (_ :: _ :: _ :: bs) = _
    rw [ofUtf8?_three (by omega) (by omega) (by omega) (by omega), hn, scalar?_toNat (by omega),
      Option.bind_some]
  · have hn : (c.toNat / 262144 % 8 + 240 - 240) * 262144 + c.toNat / 4096 % 64 * 4096 +
        c.toNat / 64 % 64 * 64 + c.toNat % 64 = c.toNat := by omega
    show ofUtf8? (_ :: _ :: _ :: _ :: bs) = _
    rw [ofUtf8?_four (by omega) (by omega) (by omega) (by omega) (by omega), hn, scalar?_toNat (by omega),
      Option.bind_some]

/-- What is read from the bytes of a text is the text. -/
theorem ofUtf8?_utf8 (t : Text) : ofUtf8? (utf8 t) = some t := by
  induction t with
  | nil => rfl
  | cons c t ih =>
    have hcons : utf8 (c :: t) = String.utf8EncodeChar c ++ utf8 t := by rw [utf8, List.flatMap_cons]; rfl
    rw [hcons, ofUtf8?_char_append, ih, Option.map_some]

end TunnelConf.Text
