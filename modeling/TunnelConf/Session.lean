import TunnelConf.Edit.Error
import TunnelConf.Log.Event
import TunnelConf.Scan

/-!
# Scan sessions

A session scans texts for one caller. To refresh a buffer is to scan it, to have the buffer fill
in the key that the scan proposes, and to scan it again. While the buffer does so it may call the
session, which skips such calls: they change nothing and draw no random bytes.
-/

namespace TunnelConf

/-- A buffer that is a text applies a splice to itself, unless the program stops. -/
def Splice.edit (checked : Bool) (s : Splice) : ExceptT EditError (StateT Text Option) Unit := do
  let t ← get
  match ← (s.wordApply? checked t : StateT Text Option _) with
  | .ok r => set r
  | .error e => throw (.splice e)

namespace Scan

/-- The events of a scan. -/
def events (s : Scan) : List Event :=
  (if s.autofill.isSome then [.keyGenerated] else []) ++ [.scanned]

end Scan

/-- What a refresh did: the scan of the buffer as it is now, and the splice that was applied. -/
structure Refreshed where
  scan : Scan
  autofill : Option Splice
deriving DecidableEq, Repr

def Refreshed.changed (r : Refreshed) : Bool := r.autofill.isSome

inductive SessionState
  | idle
  | scanning
deriving DecidableEq, Repr

structure Session where
  state : SessionState
  random : RandomStream

/-- A call on a session. A buffer to refresh makes calls of its own before it applies a splice, and
it may refuse the splice. -/
inductive Call
  | state
  | scan (t : Text)
  | refresh (t : Text) (calls : List Call) (refusal : Option EditError)

inductive Reply
  | state (s : SessionState)
  | skipped
  | scanned (s : Scan)
  | failed (e : EditError)
  | refreshed (r : Refreshed)
deriving DecidableEq, Repr

/-- A call that was answered: the reply, the buffer afterwards if there was one, the replies to the
calls that the buffer made, and the events. -/
structure Answer where
  reply : Reply
  buffer : Option Text
  nested : List Reply
  events : List Event
deriving DecidableEq, Repr

namespace Session

/-- A session that has not been used yet. -/
def start (r : RandomStream) : Session := ⟨.idle, r⟩

/-- Asks for the session, which only a call that finds it idle gets. It is scanning from then on, or
still is. -/
def enter (s : Session) : Bool × Session := (s.state = .idle, { s with state := .scanning })

/-- Gives the session back, at the end of the call that got it. -/
def release (s : Session) : Session := { s with state := .idle }

mutual

/-- Answers a call. -/
def perform (s : Session) : Call → Answer × Session
  | .state => (⟨.state s.state, none, [], []⟩, s)
  | .scan t =>
    match s.enter with
    | (false, s) => (⟨.skipped, none, [], [.scanSkipped]⟩, s)
    | (true, s) =>
      let (scan, random) := Scan.ofText t s.random
      (⟨.scanned scan, none, [], scan.events⟩, release { s with random })
  | .refresh t calls refusal =>
    match s.enter with
    | (false, s) => (⟨.skipped, some t, [], [.refreshSkipped]⟩, s)
    | (true, s) =>
      let (first, random) := Scan.ofText t s.random
      match first.autofill with
      | none =>
        (⟨.refreshed ⟨first, none⟩, some t, [], first.events⟩, release { s with random })
      | some splice =>
        let (nested, s) := performAll { s with random } calls
        let replies := nested.map Answer.reply
        let before := first.events ++ nested.flatMap Answer.events
        match refusal, splice.apply t with
        | some e, _ => (⟨.failed e, some t, replies, before⟩, s.release)
        | none, .error e => (⟨.failed (.splice e), some t, replies, before⟩, s.release)
        | none, .ok filled =>
          let (second, random) := Scan.ofText filled s.random
          (⟨.refreshed ⟨second, some splice⟩, some filled, replies,
            before ++ .autofillApplied :: second.events⟩, release { s with random })

/-- Answers calls one after the other. -/
def performAll (s : Session) : List Call → List Answer × Session
  | [] => ([], s)
  | c :: cs =>
    let (answer, s) := perform s c
    let (answers, s) := performAll s cs
    (answer :: answers, s)

end

/-- Refreshes a text that makes no calls and refuses nothing. -/
def refresh (s : Session) (t : Text) : Answer × Session := s.perform (.refresh t [] none)

end Session

end TunnelConf
