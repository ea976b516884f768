import TunnelConf.Text.Basic

/-!
# Ranges of characters

Properties of characters are given as tables of code points.
-/

namespace TunnelConf

/-- Increasing ranges of code points with both ends included. -/
abbrev CharRanges := List (Nat × Nat)

def CharRanges.contains (rs : CharRanges) (c : Char) : Bool :=
  rs.any fun r => r.1 ≤ c.toNat && c.toNat ≤ r.2

end TunnelConf
