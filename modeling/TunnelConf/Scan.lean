import TunnelConf.Grammar
import TunnelConf.Rule.Basic
import TunnelConf.Splice

/-!
# Scans

A scan annotates every recognised line of a text, finished or not, and proposes a key for the
first private key that is still empty. The annotations depend on the text alone
(`annotations_build`); the random stream decides the bytes of the proposed key.
-/

namespace TunnelConf

structure Scan where
  annotations : List Annotation
  derivedPrivate : Option Text
  derivedPublic : Option Text
  autofill : Option Splice
deriving DecidableEq, Repr

/-- The assignment of a private key and the offset of its line. -/
structure KeySite where
  offset : Nat
  pair : Pair
  assignment : Assignment
deriving DecidableEq, Repr

namespace KeySite

def ofMatch? (m : LineMatch) : Option KeySite :=
  match m.form with
  | .pair p =>
    if Rule.ofKey? p.name = some .privateKey then p.assignment.map (KeySite.mk m.offset p)
    else none
  | _ => none

def isEmpty (s : KeySite) : Bool := s.assignment.value.isEmpty

/-- The public key of the value; for an empty value that of the generated pair. -/
def publicKey? (generated : Option KeyPair) (s : KeySite) : Option Text :=
  if s.isEmpty then generated.map fun pair => pair.publicKey.encode
  else (KeyPair.decode s.assignment.value).toOption.map fun pair => pair.publicKey.encode

/-- Fills the value in, with a space before it where it would follow the equals sign directly. -/
def fill (s : KeySite) (pair : KeyPair) : Splice :=
  let value := s.pair.valueSpan s.offset
  let key := pair.secret.encode
  .replace value.start value.stop (if s.assignment.after.isEmpty then ' ' :: key else key)

end KeySite

namespace Scan

def errors (s : Scan) : List Annotation := s.annotations.filter Annotation.isError

def hasErrors (s : Scan) : Bool := s.annotations.any Annotation.isError

/-- The scan with the severities that `grade` gives for findings; others stay as they are. -/
def regrade (grade : Finding → Option Severity) (s : Scan) : Scan :=
  { s with annotations := s.annotations.map fun a =>
      match a.finding.bind grade with
      | some severity => { a with severity }
      | none => a }

/-- The annotations of a value. An error on the whole value stands in the place of the value's own
annotation, errors on tokens come after it. -/
def annotateValue (rule : Rule) (value : Text) (s : Span) : List Annotation :=
  let errors := (rule.validate value s).errors
  if errors.any fun a => a.span == s then errors else .info s :: errors

/-- Values of unknown keys are not checked, and bare keys have no value yet. -/
def annotatePair (offset : Nat) (p : Pair) : List Annotation :=
  let key := p.keySpan offset
  match Rule.ofKey? p.name with
  | none => .error key .unrecognizedKey :: ((p.valueSpan? offset).map Annotation.info).toList
  | some rule =>
    .info key :: (p.valueSpan? offset).elim [] (annotateValue rule p.valueText)

def annotate (m : LineMatch) : List Annotation :=
  match m.form with
  | .comment .. => [.info m.span]
  | .header _ name _ =>
    if Rule.isKnownSection name then [.info m.span] else [.error m.span .unrecognizedSection]
  | .pair p => annotatePair m.offset p

/-- The places where a text assigns a private key. -/
def keySites (t : Text) : List KeySite := (scanLines t).filterMap KeySite.ofMatch?

/-- The first private key that is still empty. -/
def emptySite? (t : Text) : Option KeySite := (keySites t).find? KeySite.isEmpty

/-- The scan of a text, with the pair generated for its empty private key if it has one. -/
def build (t : Text) (generated : Option KeyPair) : Scan where
  annotations := (scanLines t).flatMap annotate
  derivedPrivate := generated.map fun pair => pair.secret.encode
  derivedPublic := (keySites t).findSome? (KeySite.publicKey? generated)
  autofill := do return (← emptySite? t).fill (← generated)

/-- Scans a text; random bytes are drawn only for an empty private key. -/
def ofText (t : Text) (r : RandomStream) : Scan × RandomStream :=
  if (emptySite? t).isSome then
    let (pair, r) := KeyPair.generate r
    (build t (some pair), r)
  else (build t none, r)

theorem annotations_build (t : Text) (generated : Option KeyPair) :
    (build t generated).annotations = (scanLines t).flatMap annotate := rfl

end Scan

end TunnelConf
