import TunnelConf.Key.Pair
import TunnelConf.Proofs.Lines

/-!
# Encoded keys

What is read from a written key is the key (`Key.decode_encode`), since reading base64 undoes writing
it (`Base64.decode?_encode`). The written form is one line of 44 characters with nothing to trim.
-/

namespace TunnelConf

open Text

namespace Base64

/-! ### Symbols -/

theorem value?_symbol {n : Nat} (h : n < 64) : value? (symbol n) = some n := by
  have hall : ∀ n ∈ List.range 64, value? (symbol n) = some n := by decide
  exact hall n (List.mem_range.2 h)

theorem symbol_ne_padding {n : Nat} (h : n < 64) : symbol n ≠ '=' := by
  intro he
  have := value?_symbol h
  rw [he] at this
  cases this

/-- The characters of written forms, padding included. -/
def IsSymbol (c : Char) : Prop := c.utf8Size = 1 ∧ isSpace c = false

theorem isSymbol_symbol {n : Nat} (h : n < 64) : IsSymbol (symbol n) := by
  have hall : ∀ n ∈ List.range 64, (symbol n).utf8Size = 1 ∧ isSpace (symbol n) = false := by decide
  exact hall n (List.mem_range.2 h)

theorem isSymbol_padding : IsSymbol '=' := ⟨rfl, by decide⟩

/-! ### Reading what is written -/

section Blocks
variable (a b c : UInt8)

theorem decodeBlock?_symbols :
    decodeBlock? (symbol (a.toNat / 4)) (symbol (a.toNat % 4 * 16 + b.toNat / 16))
      (symbol (b.toNat % 16 * 4 + c.toNat / 64)) (symbol (c.toNat % 64)) = some [a, b, c] := by
  have ha := a.toNat_lt
  have hb := b.toNat_lt
  have hc := c.toNat_lt
  have h₁ : a.toNat / 4 * 4 + (a.toNat % 4 * 16 + b.toNat / 16) / 16 = a.toNat := by omega
  have h₂ : (a.toNat % 4 * 16 + b.toNat / 16) % 16 * 16 + (b.toNat % 16 * 4 + c.toNat / 64) / 4 =
      b.toNat := by omega
  have h₃ : (b.toNat % 16 * 4 + c.toNat / 64) % 4 * 64 + c.toNat % 64 = c.toNat := by omega
  rw [decodeBlock?, value?_symbol (by omega), value?_symbol (by omega), value?_symbol (by omega),
    value?_symbol (by omega)]
  simp only [Option.bind_eq_bind, Option.bind_some, Option.pure_def, h₁, h₂, h₃, UInt8.ofNat_toNat]

theorem decodeLast?_one :
    decodeLast? (symbol (a.toNat / 4)) (symbol (a.toNat % 4 * 16)) '=' '=' = some [a] := by
  have ha := a.toNat_lt
  have h₁ : a.toNat / 4 * 4 + a.toNat % 4 * 16 / 16 = a.toNat := by omega
  have h₂ : a.toNat % 4 * 16 % 16 = 0 := by omega
  rw [decodeLast?, value?_symbol (by omega), value?_symbol (by omega)]
  simp only [Option.bind_eq_bind, Option.bind_some, Option.pure_def, ↓reduceIte, h₁, h₂, UInt8.ofNat_toNat]

theorem decodeLast?_two :
    decodeLast? (symbol (a.toNat / 4)) (symbol (a.toNat % 4 * 16 + b.toNat / 16))
      (symbol (b.toNat % 16 * 4)) '=' = some [a, b] := by
  have ha := a.toNat_lt
  have hb := b.toNat_lt
  have h₁ : a.toNat / 4 * 4 + (a.toNat % 4 * 16 + b.toNat / 16) / 16 = a.toNat := by omega
  have h₂ : (a.toNat % 4 * 16 + b.toNat / 16) % 16 * 16 + b.toNat % 16 * 4 / 4 = b.toNat := by omega
  have h₃ : b.toNat % 16 * 4 % 4 = 0 := by omega
  have hne : symbol (b.toNat % 16 * 4) ≠ '=' := symbol_ne_padding (by omega)
  rw [decodeLast?, value?_symbol (by omega), value?_symbol (by omega), value?_symbol (by omega)]
  simp only [Option.bind_eq_bind, Option.bind_some, Option.pure_def, ↓reduceIte, hne, h₁, h₂, h₃,
    UInt8.ofNat_toNat]

end Blocks

theorem decode?_encode (bytes : List UInt8) : decode? (encode bytes) = some bytes := by
  fun_induction encode bytes with
  | case1 => rfl
  | case2 a => exact decodeLast?_one a
  | case3 a b => exact decodeLast?_two a b
  | case4 a b c r ih =>
    have hblock := decodeBlock?_symbols a b c
    cases hr : encode r with
    | nil =>
      -- the block is the last one, but its last symbol is no padding
      have hc := c.toNat_lt
      have hne : symbol (c.toNat % 64) ≠ '=' := symbol_ne_padding (by omega)
      rw [hr] at ih
      obtain rfl : r = [] := by simpa [decode?] using ih.symm
      rw [decode?, decodeLast?, if_neg hne, hblock]
    | cons d s =>
      rw [hr] at ih
      rw [decode?, hblock, ih]
      · rfl
      · simp

theorem isSymbol_of_mem_encode {bytes : List UInt8} {c : Char} (h : c ∈ encode bytes) : IsSymbol c := by
  fun_induction encode bytes with
  | case1 => cases h
  | case2 a =>
    have ha := a.toNat_lt
    simp only [List.mem_cons, List.not_mem_nil, or_false] at h
    rcases h with rfl | rfl | rfl | rfl
    · exact isSymbol_symbol (by omega)
    · exact isSymbol_symbol (by omega)
    · exact isSymbol_padding
    · exact isSymbol_padding
  | case3 a b =>
    have ha := a.toNat_lt
    have hb := b.toNat_lt
    simp only [List.mem_cons, List.not_mem_nil, or_false] at h
    rcases h with rfl | rfl | rfl | rfl
    · exact isSymbol_symbol (by omega)
    · exact isSymbol_symbol (by omega)
    · exact isSymbol_symbol (by omega)
    · exact isSymbol_padding
  | case4 a b d r ih =>
    have ha := a.toNat_lt
    have hb := b.toNat_lt
    have hd := d.toNat_lt
    simp only [List.mem_cons] at h
    rcases h with rfl | rfl | rfl | rfl | h
    · exact isSymbol_symbol (by omega)
    · exact isSymbol_symbol (by omega)
    · exact isSymbol_symbol (by omega)
    · exact isSymbol_symbol (by omega)
    · exact ih h

theorem length_encode (bytes : List UInt8) : (encode bytes).length = (bytes.length + 2) / 3 * 4 := by
  fun_induction encode bytes with
  | case1 => rfl
  | case2 a => simp
  | case3 a b => simp
  | case4 a b c r ih =>
    simp only [List.length_cons, ih]
    omega

end Base64

/-! ### Keys -/

namespace Key

variable (k : Key)

theorem isSymbol_of_mem_encode {c : Char} (h : c ∈ k.encode) : Base64.IsSymbol c :=
  Base64.isSymbol_of_mem_encode h

theorem length_encode : k.encode.length = 44 := by
  rw [encode, Base64.length_encode, k.length_eq]

theorem encode_ne_nil : k.encode ≠ [] := by
  intro h
  have := k.length_encode
  rw [h] at this
  cases this

theorem size_encode : size k.encode = 44 := by
  rw [size_eq_length fun _ hc => (k.isSymbol_of_mem_encode hc).1, length_encode]

theorem trimmed_encode : Trimmed k.encode :=
  ⟨fun _ hc => (k.isSymbol_of_mem_encode (List.mem_of_mem_head? hc)).2,
    fun _ hc => (k.isSymbol_of_mem_encode (List.mem_of_getLast? hc)).2⟩

theorem isBody_encode : Line.IsBody k.encode := by
  intro c hc
  have hs := (k.isSymbol_of_mem_encode hc).2
  constructor
  · rintro rfl; exact absurd hs (by decide)
  · rintro rfl; exact absurd hs (by decide)

theorem decode_encode : decode k.encode = .ok k := by
  rw [decode, trim_eq_self_iff.2 k.trimmed_encode, encode, Base64.decode?_encode]
  exact dif_pos k.length_eq

end Key

theorem KeyPair.decode_encode (pair : KeyPair) : KeyPair.decode pair.secret.encode = .ok pair := by
  rw [KeyPair.decode, Key.decode_encode]
  rfl

end TunnelConf
