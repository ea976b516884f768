import TunnelConf.Finding
import TunnelConf.Key.Pair
import TunnelConf.Rule.Endpoint
import TunnelConf.Rule.Path
import TunnelConf.Rule.Token

/-!
# Rules for values

Each known key has a rule for its values. `Rule.validate` checks a value at a span: list values
are checked token by token, all others as a whole.
-/

namespace TunnelConf

inductive Rule
  | privateKey
  | base64Key
  | addressList
  | dnsList
  | endpoint
  | numeric
  | pathList
  | freeText
deriving DecidableEq, Repr

/-- What a rule says about a value. -/
structure Verdict where
  errors : List Annotation
  publicKey : Option Text
  wantsKey : Bool
deriving DecidableEq, Repr

namespace Verdict

def accept : Verdict := ⟨[], none, false⟩

def reject (s : Span) (f : Finding) : Verdict := ⟨[.error s f], none, false⟩

end Verdict

namespace Rule

/-- The rules and the keys that they are for, in small letters. -/
def registry : List (Rule × List String) :=
  [(.privateKey, ["privatekey"]),
    (.base64Key, ["publickey", "presharedkey"]),
    (.addressList, ["address", "allowedips", "disallowedips"]),
    (.dnsList, ["dns"]),
    (.endpoint, ["endpoint", "socks5proxy"]),
    (.numeric, ["mtu", "listenport", "persistentkeepalive", "scriptexectimeout"]),
    (.pathList, ["allowedapps", "disallowedapps"]),
    (.freeText, ["socks5proxyusername", "socks5proxypassword", "preup", "postup", "predown",
      "postdown"])]

/-- The rule for the values of a key. -/
def ofKey? (key : Text) : Option Rule :=
  (registry.find? fun r => r.2.any fun name => name.toList == Text.lower key).map Prod.fst

def sectionNames : List String := ["interface", "peer"]

def isKnownSection (name : Text) : Bool :=
  sectionNames.any fun known => Text.sameName known.toList name

def isAddressOrSubnet (t : Text) : Bool :=
  (Subnet.ofText? t).isSome || (Address.ofText? t).isSome

def isNumeric (t : Text) : Bool := (Text.int64? t).any fun n => 0 ≤ n && n ≤ 65535

/-- A rejection of the tokens that do not satisfy `p`. -/
def checkTokens (p : Text → Bool) (f : Finding) (value : Text) (s : Span) : Verdict :=
  let bad := (Token.ofValue value).filter fun t => !p t.text
  ⟨bad.map fun t => .error ⟨s.start + t.start, Text.size t.text, s.role⟩ f, none, false⟩

def validate (r : Rule) (value : Text) (s : Span) : Verdict :=
  match r with
  | .privateKey =>
    if value.isEmpty then ⟨[], none, true⟩
    else
      match KeyPair.decode value with
      | .ok pair => ⟨[], some pair.publicKey.encode, false⟩
      | .error _ => .reject s .malformedKeyMaterial
  | .base64Key =>
    if value.isEmpty || (Key.decode value).isOk then .accept
    else .reject s .malformedKeyMaterial
  | .addressList => checkTokens isAddressOrSubnet .invalidAddressOrSubnet value s
  | .dnsList => checkTokens (fun t => (Address.ofText? t).isSome) .invalidDnsAddress value s
  | .endpoint => if Endpoint.isValid value then .accept else .reject s .invalidEndpoint
  | .numeric => if isNumeric value then .accept else .reject s .invalidNumericRange
  | .pathList => checkTokens ProgramPath.isValid .invalidPathPattern value s
  | .freeText => .accept

end Rule

end TunnelConf
