import TunnelConf.Text.Basic

/-!
# ASCII letters and digits

Key names are runs of ASCII letters and digits and are compared up to letter case.
-/

namespace TunnelConf

namespace Text

/-- A space or a tab. -/
def isBlank (c : Char) : Bool := c == ' ' || c == '\t'

def isAlphanumeric (c : Char) : Bool :=
  ('0' ≤ c && c ≤ '9') || ('A' ≤ c && c ≤ 'Z') || ('a' ≤ c && c ≤ 'z')

def isDigit (c : Char) : Bool := '0' ≤ c && c ≤ '9'

def lowerChar (c : Char) : Char :=
  if 'A' ≤ c && c ≤ 'Z' then Char.ofNat (c.toNat + 32) else c

/-- The text with its ASCII capitals replaced by small letters. -/
def lower (t : Text) : Text := t.map lowerChar

/-- Equality up to the case of ASCII letters. -/
def sameName (s t : Text) : Bool := lower s == lower t

end Text

end TunnelConf
