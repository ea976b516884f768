import TunnelConf.Text.Basic

/-!
# Spans

Stretches of a text, in bytes, with the role that the text plays there.
-/

namespace TunnelConf

inductive Role
  | comment
  | header
  | key
  | value
deriving DecidableEq, Repr

structure Span where
  start : Nat
  len : Nat
  role : Role
deriving DecidableEq, Repr

namespace Span

def stop (s : Span) : Nat := s.start + s.len

/-- The text that the span covers; empty if the span does not fit the text. -/
def slice (s : Span) (t : Text) : Text := (Text.slice? s.start s.len t).getD []

end Span

end TunnelConf
