import TunnelConf.Text.Ascii
import TunnelConf.Text.Ranges

/-!
# White space

The characters with the Unicode property White_Space, and the text without them at its ends.
-/

namespace TunnelConf

namespace Text

/-- The code points with the property White_Space. -/
def spaceRanges : CharRanges :=
  [(0x09, 0x0D), (0x20, 0x20), (0x85, 0x85), (0xA0, 0xA0), (0x1680, 0x1680), (0x2000, 0x200A),
    (0x2028, 0x2029), (0x202F, 0x202F), (0x205F, 0x205F), (0x3000, 0x3000)]

def isSpace (c : Char) : Bool := spaceRanges.contains c

/-- The text without the white space at its ends. -/
def trim (t : Text) : Text := trimWhile isSpace t

/-- Spaces and tabs are white space. -/
theorem isSpace_of_isBlank {c : Char} (h : isBlank c = true) : isSpace c = true := by
  simp only [isBlank, Bool.or_eq_true, beq_iff_eq] at h
  rcases h with rfl | rfl <;> decide

end Text

end TunnelConf
