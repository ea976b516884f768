import TunnelConf.Key.Base64
import TunnelConf.Key.Curve25519
import TunnelConf.Key.Random
import TunnelConf.Text.Number
import TunnelConf.Text.Space

/-!
# Keys and key pairs

Keys are 32 bytes, written in base64. A pair is made from its private key, which is kept as it is
given; the public key belongs to the clamped bytes.
-/

namespace TunnelConf

/-- Thirty-two bytes of key material. -/
structure Key where
  bytes : List UInt8
  length_eq : bytes.length = 32
deriving DecidableEq, Repr

inductive KeyError
  | notBase64
  | wrongLength (actual : Nat)
deriving DecidableEq, Repr

def KeyError.message : KeyError → Text
  | .notBase64 => "key is not valid base64".toList
  | .wrongLength n => "key must decode to 32 bytes, got ".toList ++ Text.ofNat n

namespace Key

def ofBytes (bytes : List UInt8) : Except KeyError Key :=
  if h : bytes.length = 32 then .ok ⟨bytes, h⟩ else .error (.wrongLength bytes.length)

/-- The number with these bytes, the lowest first. -/
def toNat (k : Key) : Nat := k.bytes.foldr (fun b n => b.toNat + 256 * n) 0

/-- The bytes of a number, the lowest first. -/
def ofNat (n : Nat) : Key :=
  ⟨(List.range 32).map fun i => UInt8.ofNat (n >>> (8 * i)), by simp⟩

/-- The bytes of a scalar: a multiple of eight between `2 ^ 254` and `2 ^ 255`. -/
def clamp (k : Key) : Key :=
  ⟨k.bytes.mapIdx fun i b => if i = 0 then b &&& 248 else if i = 31 then b &&& 127 ||| 64 else b,
    by simp [k.length_eq]⟩

/-- The public key that belongs to a private key. -/
def derivePublic (k : Key) : Key := ofNat (Curve25519.scalarMul k.clamp.toNat Curve25519.base)

/-- The public key that belongs to bytes, if they are a private key. -/
def publicFor (bytes : List UInt8) : Except KeyError Key := (ofBytes bytes).map derivePublic

/-- The base64 form. -/
def encode (k : Key) : Text := Base64.encode k.bytes

/-- Reads a base64 form, with white space around it or not. -/
def decode (t : Text) : Except KeyError Key :=
  match Base64.decode? (Text.trim t) with
  | none => .error .notBase64
  | some bytes => ofBytes bytes

end Key

/-- A private key, with its public key. -/
structure KeyPair where
  secret : Key
deriving DecidableEq, Repr

namespace KeyPair

def publicKey (p : KeyPair) : Key := p.secret.derivePublic

def decode (t : Text) : Except KeyError KeyPair := (Key.decode t).map KeyPair.mk

/-- The pair of the next 32 random bytes, clamped. -/
def generate (r : RandomStream) : KeyPair × RandomStream :=
  (⟨(Key.mk (r.next 32) (by simp)).clamp⟩, r.advance 32)

/-- The next pairs, one after the other. -/
def generateMany : Nat → RandomStream → List KeyPair × RandomStream
  | 0, r => ([], r)
  | n + 1, r =>
    let (pair, r) := generate r
    let (pairs, r) := generateMany n r
    (pair :: pairs, r)

/-- A description that shows the public key only. -/
def redacted (p : KeyPair) : Text :=
  "KeyPair \x7b private: \"<redacted>\", public: \"".toList ++ p.publicKey.encode ++
    "\" \x7d".toList

end KeyPair

end TunnelConf
