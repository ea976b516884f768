import TunnelConf.Text.Basic

/-!
# UTF-8

Texts as bytes. `Text.utf8` encodes a text, and `Text.ofUtf8?` reads the shortest form of each
character back and refuses everything else. Main statement: `length_utf8`, the bytes of a text are
as many as its `size` says.
-/

namespace TunnelConf

namespace Text

/-- The UTF-8 form. -/
def utf8 (t : Text) : List UInt8 := t.flatMap String.utf8EncodeChar

/-- The character with code point `n`, if it needs at least as many bits as `least` has. -/
def scalar? (least n : Nat) : Option Char :=
  if least ≤ n ∧ n.isValidChar then some (Char.ofNat n) else none

/-- The six low bits of a continuation byte. -/
def continuation? (b : UInt8) : Option Nat :=
  if 0x80 ≤ b ∧ b < 0xC0 then some (b.toNat - 0x80) else none

/-- The text with the given UTF-8 form. -/
def ofUtf8? : List UInt8 → Option Text
  | [] => some []
  | a :: as =>
    if a < 0x80 then (ofUtf8? as).map (Char.ofNat a.toNat :: ·)
    else match as with
      | [] => none
      | b :: bs =>
        (continuation? b).bind fun y =>
        if a < 0xE0 then
          (scalar? 0x80 ((a.toNat - 0xC0) * 64 + y)).bind fun ch =>
          if a < 0xC0 then none else (ofUtf8? bs).map (ch :: ·)
        else match bs with
          | [] => none
          | c :: cs =>
            (continuation? c).bind fun z =>
            if a < 0xF0 then
              (scalar? 0x800 ((a.toNat - 0xE0) * 4096 + y * 64 + z)).bind fun ch =>
              (ofUtf8? cs).map (ch :: ·)
            else match cs with
              | [] => none
              | d :: ds =>
                (continuation? d).bind fun w =>
                (scalar? 0x10000 ((a.toNat - 0xF0) * 262144 + y * 4096 + z * 64 + w)).bind fun ch =>
                (ofUtf8? ds).map (ch :: ·)

@[simp] theorem utf8_nil : utf8 [] = [] := rfl

@[simp] theorem utf8_append (s t : Text) : utf8 (s ++ t) = utf8 s ++ utf8 t := by
  simp [utf8]

/-- A text has as many bytes as its size says. -/
theorem length_utf8 (t : Text) : (utf8 t).length = size t := by
  induction t with
  | nil => rfl
  | cons c t ih =>
    have := ih
    simp only [utf8] at this
    simp [utf8, this]

end Text

end TunnelConf
