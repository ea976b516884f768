import TunnelConf.Text.Ascii

/-!
# Tokens of a list value

List values are cut at commas and blanks.
-/

namespace TunnelConf

/-- A part of a value and the offset in the value at which it starts. -/
structure Token where
  start : Nat
  text : Text
deriving DecidableEq, Repr

namespace Token

def isDelimiter (c : Char) : Bool := c == ',' || Text.isBlank c

/-- The given parts with their offsets, the first at `start`, each one byte after the other. -/
def placed (start : Nat) : List Text → List Token
  | [] => []
  | p :: ps => ⟨start, p⟩ :: placed (start + Text.size p + 1) ps

def stop (t : Token) : Nat := t.start + Text.size t.text

/-- The stretches of a value between delimiters that are not empty. -/
def ofValue (value : Text) : List Token :=
  (placed 0 (Text.splitWhere isDelimiter value)).filter fun t => !t.text.isEmpty

end Token

end TunnelConf
