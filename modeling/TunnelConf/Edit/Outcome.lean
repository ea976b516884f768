import TunnelConf.Diff.Unified
import TunnelConf.Edit.Value
import TunnelConf.Merge
import TunnelConf.Session

/-!
# Edits of a text

An edit is first worked out as a draft, which touches no file: the text before and after, the
splice between them, and the scan of the text after.
-/

namespace TunnelConf

/-- What an edit comes to. -/
structure Outcome where
  changed : Bool
  diff : Option Diff
  splice : Option Splice
  result : Text
  scan : Scan
deriving DecidableEq, Repr

namespace Outcome

/-- Whether a span touches the bytes that a splice wrote. -/
def touches (s : Splice) (span : Span) : Bool :=
  let stop := s.start + Text.size s.replacement
  (s.start ≤ span.start && span.start < stop) || (span.start < s.start && s.start < span.stop)

/-- The errors that touch what the edit wrote; others were there before. -/
def introducedErrors (o : Outcome) : List Annotation :=
  o.scan.errors.filter fun a => o.splice.any fun s => touches s a.span

end Outcome

structure Draft where
  original : Text
  result : Text
  splice : Option Splice
  scan : Scan
  random : RandomStream
  events : List Event

namespace Draft

/-- Adds a value to a key. -/
def ofMerge (t key value : Text) (r : RandomStream) : Except EditError Draft := do
  match KeyName.ofText? key with
  | none => throw (.invalidKeyName key)
  | some name =>
    let splice := mergeInsert t name value
    let result ← (splice.apply t).mapError .splice
    let (scan, random) := Scan.ofText result r
    let found := if (KeyLine.find? name.text t).isSome then .keyFound else .keyAbsent
    let findings := if scan.hasErrors then [.resultHasFindings] else []
    return ⟨t, result, some splice, scan, random, found :: scan.events ++ findings⟩

/-- Fills the first empty private key in. -/
def ofFill (t : Text) (r : RandomStream) : Except EditError Draft :=
  let (answer, session) := (Session.start r).refresh t
  match answer.reply with
  | .refreshed done =>
    let filled := if done.changed then [.fileFilled] else []
    .ok ⟨t, answer.buffer.getD t, done.autofill, done.scan, session.random,
      answer.events ++ filled⟩
  | .failed e => .error e
  | _ => .error .sessionBusy

def changed (d : Draft) : Bool := d.original != d.result

def outcome (path : Text) (d : Draft) : Outcome :=
  ⟨d.changed, Diff.between? d.original d.result path, d.splice, d.result, d.scan⟩

end Draft

end TunnelConf
