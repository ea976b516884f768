import TunnelConf.Address.Basic

/-!
# Subnets and sockets

An address with the number of leading bits that a subnet fixes, and an address with a port.
-/

namespace TunnelConf

structure Subnet where
  address : Address
  bits : Nat
deriving DecidableEq, Repr

namespace Subnet

def readV4? (t : Text) : Option (Subnet × Text) := do
  let (octets, t) ← Address.readV4? Address.loose t
  let (bits, t) ← Address.readNumber? 10 2 33 (← Address.expect? '/' t)
  return (⟨.v4 octets, bits⟩, t)

def readV6? (t : Text) : Option (Subnet × Text) := do
  let (groups, t) ← Address.readV6? Address.loose t
  let (bits, t) ← Address.readNumber? 10 3 129 (← Address.expect? '/' t)
  return (⟨.v6 groups, bits⟩, t)

def ofText? (t : Text) : Option Subnet :=
  Address.complete? ((readV4? t).or (readV6? t))

end Subnet

structure Socket where
  address : Address
  port : Nat
deriving DecidableEq, Repr

namespace Socket

/-- A port after a colon. -/
def readPort? (t : Text) : Option (Nat × Text) := do
  let t ← Address.expect? ':' t
  Address.readNumber? 10 t.length 65536 t

def readV4? (t : Text) : Option (Socket × Text) := do
  let (octets, t) ← Address.readV4? Address.strict t
  let (port, t) ← readPort? t
  return (⟨.v4 octets, port⟩, t)

/-- The rest after a scope, a percent sign and a number of 32 bits, if there is one. -/
def skipScope? (t : Text) : Option Text :=
  match Address.expect? '%' t with
  | none => some t
  | some u => (Address.readNumber? 10 u.length 0x100000000 u).map Prod.snd

def readV6? (t : Text) : Option (Socket × Text) := do
  let (groups, t) ← Address.readV6? Address.strict (← Address.expect? '[' t)
  let t ← Address.expect? ']' (← skipScope? t)
  let (port, t) ← readPort? t
  return (⟨.v6 groups, port⟩, t)

def ofText? (t : Text) : Option Socket :=
  Address.complete? ((readV4? t).or (readV6? t))

end Socket

end TunnelConf
