import TunnelConf.Text.Basic

/-!
# Base64

The standard alphabet, with padding. `decode?` reads canonical texts only: the padding has to be
there and the bits that no byte uses have to be zero, so that `encode` is its only inverse.
-/

namespace TunnelConf

namespace Base64

/-- The symbol for a number below 64. -/
def symbol (n : Nat) : Char :=
  if n < 26 then Char.ofNat (n + 65)
  else if n < 52 then Char.ofNat (n + 71)
  else if n < 62 then Char.ofNat (n - 4)
  else if n = 62 then '+'
  else '/'

/-- The number that a symbol stands for. -/
def value? (c : Char) : Option Nat :=
  if 'A' ≤ c ∧ c ≤ 'Z' then some (c.toNat - 65)
  else if 'a' ≤ c ∧ c ≤ 'z' then some (c.toNat - 71)
  else if '0' ≤ c ∧ c ≤ '9' then some (c.toNat + 4)
  else if c = '+' then some 62
  else if c = '/' then some 63
  else none

def encode : List UInt8 → Text
  | [] => []
  | [a] => [symbol (a.toNat / 4), symbol (a.toNat % 4 * 16), '=', '=']
  | [a, b] =>
    [symbol (a.toNat / 4), symbol (a.toNat % 4 * 16 + b.toNat / 16),
      symbol (b.toNat % 16 * 4), '=']
  | a :: b :: c :: r =>
    symbol (a.toNat / 4) :: symbol (a.toNat % 4 * 16 + b.toNat / 16) ::
      symbol (b.toNat % 16 * 4 + c.toNat / 64) :: symbol (c.toNat % 64) :: encode r

/-- The three bytes of four symbols. -/
def decodeBlock? (a b c d : Char) : Option (List UInt8) := do
  let w ← value? a
  let x ← value? b
  let y ← value? c
  let z ← value? d
  return [UInt8.ofNat (w * 4 + x / 16), UInt8.ofNat (x % 16 * 16 + y / 4),
    UInt8.ofNat (y % 4 * 64 + z)]

/-- The one to three bytes of the last four symbols, of which up to two may be padding. -/
def decodeLast? (a b c d : Char) : Option (List UInt8) :=
  if d = '=' then do
    let w ← value? a
    let x ← value? b
    if c = '=' then
      if x % 16 = 0 then return [UInt8.ofNat (w * 4 + x / 16)] else none
    else
      let y ← value? c
      if y % 4 = 0 then return [UInt8.ofNat (w * 4 + x / 16), UInt8.ofNat (x % 16 * 16 + y / 4)]
      else none
  else decodeBlock? a b c d

def decode? : Text → Option (List UInt8)
  | [] => some []
  | [a, b, c, d] => decodeLast? a b c d
  | a :: b :: c :: d :: r => do
    let block ← decodeBlock? a b c d
    let rest ← decode? r
    return block ++ rest
  | _ => none

end Base64

end TunnelConf
