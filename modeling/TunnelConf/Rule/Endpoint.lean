import TunnelConf.Address.Subnet

/-!
# Endpoints

An endpoint is an address or a host name, with a port or without one.
-/

namespace TunnelConf

namespace HostName

/-- One to 63 letters, digits, hyphens and underscores, with no hyphen at either end. -/
def isLabel (l : Text) : Bool :=
  !l.isEmpty && Text.size l ≤ 63 && l.head? != some '-' && l.getLast? != some '-' &&
    l.all fun c => Text.isAlphanumeric c || c == '-' || c == '_'

/-- The text without its final dot, if it has one. -/
def dropFinalDot (t : Text) : Text := if t.getLast? = some '.' then t.dropLast else t

/-- Labels with dots between them, up to 253 bytes; a final dot is allowed. -/
def isValid (t : Text) : Bool :=
  let host := dropFinalDot t
  !host.isEmpty && Text.size host ≤ 253 && (Text.splitWhere (· == '.') host).all isLabel

end HostName

namespace Endpoint

/-- Decimal digits of a number below 65536; a plus may stand in front. -/
def isPort (t : Text) : Bool := (Text.unsigned? t).any (· < 65536)

def isValid (t : Text) : Bool :=
  if t.isEmpty then false
  else if (Socket.ofText? t).isSome || (Address.ofText? t).isSome then true
  else
    match Text.splitLast? ':' t with
    | none => HostName.isValid t
    | some (host, port) => !host.contains ':' && isPort port && HostName.isValid host

end Endpoint

end TunnelConf
