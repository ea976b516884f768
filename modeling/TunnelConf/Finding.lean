import TunnelConf.Span

/-!
# Findings

What a scan can object to, how serious that is, and the annotations that carry it.
-/

namespace TunnelConf

inductive Severity
  | info
  | error
deriving DecidableEq, Repr

namespace Severity

def name : Severity → Text
  | .info => "info".toList
  | .error => "error".toList

def all : List Severity := [.info, .error]

def ofName? (t : Text) : Option Severity := all.find? (·.name == t)

end Severity

inductive Finding
  | unrecognizedSection
  | unrecognizedKey
  | malformedKeyMaterial
  | invalidAddressOrSubnet
  | invalidDnsAddress
  | invalidEndpoint
  | invalidNumericRange
  | invalidPathPattern
deriving DecidableEq, Repr

namespace Finding

def all : List Finding :=
  [.unrecognizedSection, .unrecognizedKey, .malformedKeyMaterial, .invalidAddressOrSubnet,
    .invalidDnsAddress, .invalidEndpoint, .invalidNumericRange, .invalidPathPattern]

def slug (f : Finding) : Text :=
  String.toList <| match f with
  | .unrecognizedSection => "unrecognized-section"
  | .unrecognizedKey => "unrecognized-key"
  | .malformedKeyMaterial => "malformed-key-material"
  | .invalidAddressOrSubnet => "invalid-address-or-subnet"
  | .invalidDnsAddress => "invalid-dns-address"
  | .invalidEndpoint => "invalid-endpoint"
  | .invalidNumericRange => "invalid-numeric-range"
  | .invalidPathPattern => "invalid-path-pattern"

def message (f : Finding) : Text :=
  String.toList <| match f with
  | .unrecognizedSection => "section must be [Interface] or [Peer]"
  | .unrecognizedKey => "unknown configuration key"
  | .malformedKeyMaterial => "key must be base64 encoding 32 bytes"
  | .invalidAddressOrSubnet => "expected an IP address or CIDR subnet"
  | .invalidDnsAddress => "expected an IP address"
  | .invalidEndpoint => "expected an IP address or host name with optional port"
  | .invalidNumericRange => "expected an integer between 0 and 65535"
  | .invalidPathPattern => "expected a file or directory path"

def ofSlug? (t : Text) : Option Finding := all.find? (·.slug == t)

end Finding

structure Annotation where
  span : Span
  severity : Severity
  finding : Option Finding
deriving DecidableEq, Repr

namespace Annotation

def info (s : Span) : Annotation := ⟨s, .info, none⟩

def error (s : Span) (f : Finding) : Annotation := ⟨s, .error, some f⟩

def isError (a : Annotation) : Bool := a.severity == .error

end Annotation

end TunnelConf
