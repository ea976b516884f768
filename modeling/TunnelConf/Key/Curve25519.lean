/-!
# Curve25519

Scalar multiples of points of the Montgomery curve with coefficient 486662 over the field of
2 ^ 255 - 19 elements, by u-coordinate. `Curve25519.scalarMul` is the Montgomery ladder: after each
bit it holds two neighbouring multiples of the point.
-/

namespace TunnelConf

namespace Curve25519

/-- The order of the field. -/
def prime : Nat := Nat.pow 2 255 - 19

def add (a b : Nat) : Nat := (a + b) % prime

def sub (a b : Nat) : Nat := (a + (prime - b % prime)) % prime

def mul (a b : Nat) : Nat := a * b % prime

/-- The binary digits of a number, the highest of `n` first. -/
def bits (n k : Nat) : List Bool := (List.range n).reverse.map k.testBit

/-- Powers by repeated squaring. -/
def pow (a k : Nat) : Nat :=
  (bits 255 k).foldl (fun r b => if b then mul (mul r r) a else mul r r) 1

/-- By Fermat's little theorem; the inverse of zero is zero. -/
def inv (a : Nat) : Nat := pow a (prime - 2)

/-- A u-coordinate as a quotient `x / z`; `z` is zero at infinity. -/
structure Point where
  x : Nat
  z : Nat
deriving DecidableEq, Repr

namespace Point

def double (p : Point) : Point :=
  let a := mul (add p.x p.z) (add p.x p.z)
  let b := mul (sub p.x p.z) (sub p.x p.z)
  let e := sub a b
  ⟨mul a b, mul e (add a (mul 121665 e))⟩

/-- The sum of two points that differ by a point with u-coordinate `u`. -/
def addWith (u : Nat) (p q : Point) : Point :=
  let a := mul (sub q.x q.z) (add p.x p.z)
  let b := mul (add q.x q.z) (sub p.x p.z)
  ⟨mul (add a b) (add a b), mul u (mul (sub a b) (sub a b))⟩

/-- The u-coordinate; zero at infinity. -/
def coordinate (p : Point) : Nat := mul p.x (inv p.z)

end Point

/-- One step of the ladder: from the multiples `n` and `n + 1` to `2 * n + b` and the next. -/
def step (u : Nat) (s : Point × Point) (b : Bool) : Point × Point :=
  let sum := s.1.addWith u s.2
  if b then (sum, s.2.double) else (s.1.double, sum)

/-- The u-coordinate of the multiple of a point by a scalar below `2 ^ 255`. -/
def scalarMul (k u : Nat) : Nat :=
  ((bits 255 k).foldl (step u) (⟨1, 0⟩, ⟨u, 1⟩)).1.coordinate

/-- The u-coordinate of the base point. -/
def base : Nat := 9

end Curve25519

end TunnelConf
