/-!
# Random bytes

A source of random bytes is an endless sequence of bytes and the place of the next one to draw.
-/

namespace TunnelConf

structure RandomStream where
  byte : Nat → UInt8
  position : Nat

namespace RandomStream

/-- The stream that repeats the given bytes; zeros if there are none. -/
def cycle (bytes : List UInt8) : RandomStream :=
  let a := bytes.toArray
  ⟨fun i => a.getD (i % a.size) 0, 0⟩

def next (n : Nat) (r : RandomStream) : List UInt8 :=
  (List.range n).map fun i => r.byte (r.position + i)

def advance (n : Nat) (r : RandomStream) : RandomStream :=
  { r with position := r.position + n }

@[simp] theorem length_next (n : Nat) (r : RandomStream) : (r.next n).length = n := by
  simp [next]

theorem advance_advance (r : RandomStream) (m n : Nat) : (r.advance m).advance n = r.advance (m + n) := by
  simp only [advance, Nat.add_assoc]

end RandomStream

end TunnelConf
