import TunnelConf.Session

/-!
# Calls made during a refresh

A session that is scanning turns every call away and stays as it is (`perform_scanning`), so what
comes of a refresh does not depend on the calls that its buffer makes (`exists_outcome_refresh`). A
call that finds the session idle is let in and leaves it idle, whatever comes of it. By induction
over a run no top-level call is turned away.
-/

namespace TunnelConf

/-- The answer to a call that finds the session scanning. -/
def Call.turnedAway : Call → Answer
  | .state => ⟨.state .scanning, none, [], []⟩
  | .scan _ => ⟨.skipped, none, [], [.scanSkipped]⟩
  | .refresh t _ _ => ⟨.skipped, some t, [], [.refreshSkipped]⟩

namespace Session

variable (r : RandomStream)

/-! ### While a call runs -/

theorem perform_scanning (c : Call) : perform ⟨.scanning, r⟩ c = (c.turnedAway, ⟨.scanning, r⟩) := by
  cases c with
  | state => rfl
  | scan t => rfl
  | refresh t calls refusal => rfl

theorem performAll_scanning (calls : List Call) :
    performAll ⟨.scanning, r⟩ calls = (calls.map Call.turnedAway, ⟨.scanning, r⟩) := by
  induction calls with
  | nil => rfl
  | cons c cs ih => simp only [performAll, perform_scanning, ih, List.map_cons]

/-- The replies to the calls of a buffer, which makes them when it is asked to fill a key in. -/
def nestedReplies (t : Text) (calls : List Call) : List Reply :=
  if (Scan.ofText t r).1.autofill.isSome then calls.map fun c => c.turnedAway.reply else []

/-- There are three ways out of a refresh: nothing to fill in, an error, and the second scan. The
calls of the buffer show in the replies to them and in the events only. -/
theorem exists_outcome_refresh (t : Text) (refusal : Option EditError) :
    ∃ reply buffer random, ∃ events : List Call → List Event, reply ≠ .skipped ∧ ∀ calls,
      perform ⟨.idle, r⟩ (.refresh t calls refusal) =
        (⟨reply, some buffer, nestedReplies r t calls, events calls⟩, ⟨.idle, random⟩) := by
  cases hf : (Scan.ofText t r).1.autofill with
  | none =>
    refine ⟨.refreshed ⟨(Scan.ofText t r).1, none⟩, t, (Scan.ofText t r).2,
      fun _ => (Scan.ofText t r).1.events, by simp, fun calls => ?_⟩
    simp only [perform, enter, decide_true, nestedReplies, hf]
    rfl
  | some splice =>
    have hn : ∀ calls, nestedReplies r t calls = (calls.map Call.turnedAway).map Answer.reply := by
      intro calls
      rw [nestedReplies, hf, List.map_map]
      rfl
    let before := fun calls : List Call =>
      (Scan.ofText t r).1.events ++ (calls.map Call.turnedAway).flatMap Answer.events
    cases refusal with
    | some e =>
      refine ⟨.failed e, t, (Scan.ofText t r).2, before, by simp, fun calls => ?_⟩
      simp only [perform, enter, decide_true, performAll_scanning, hn, hf]
      rfl
    | none =>
      cases ha : splice.apply t with
      | error e =>
        refine ⟨.failed (.splice e), t, (Scan.ofText t r).2, before, by simp, fun calls => ?_⟩
        simp only [perform, enter, decide_true, performAll_scanning, hn, hf, ha]
        rfl
      | ok filled =>
        let second := Scan.ofText filled (Scan.ofText t r).2
        refine ⟨.refreshed ⟨second.1, some splice⟩, filled, second.2,
          fun calls => before calls ++ .autofillApplied :: second.1.events, by simp, fun calls => ?_⟩
        simp only [perform, enter, decide_true, performAll_scanning, hn, hf, ha]
        rfl

/-! ### One call after the other -/

theorem perform_idle (c : Call) :
    (perform ⟨.idle, r⟩ c).1.reply ≠ .skipped ∧ (perform ⟨.idle, r⟩ c).2.state = .idle := by
  cases c with
  | state => exact ⟨by simp [perform], rfl⟩
  | scan t => exact ⟨by simp [perform, enter], rfl⟩
  | refresh t calls refusal =>
    obtain ⟨reply, buffer, random, events, hne, h⟩ := exists_outcome_refresh r t refusal
    rw [h]
    exact ⟨hne, rfl⟩

/-- An answer for every call, and none of them is that the call was skipped. -/
theorem performAll_idle (calls : List Call) :
    (performAll ⟨.idle, r⟩ calls).1.length = calls.length ∧
      (∀ a ∈ (performAll ⟨.idle, r⟩ calls).1, a.reply ≠ .skipped) ∧
      (performAll ⟨.idle, r⟩ calls).2.state = .idle := by
  induction calls generalizing r with
  | nil => exact ⟨rfl, by simp [performAll], rfl⟩
  | cons c cs ih =>
    obtain ⟨hreply, hstate⟩ := perform_idle r c
    obtain ⟨hlen, hall, hidle⟩ := ih (perform ⟨.idle, r⟩ c).2.random
    -- the session behind the first call is idle, so it is one that the induction is about
    have hs : ⟨.idle, (perform ⟨.idle, r⟩ c).2.random⟩ = (perform ⟨.idle, r⟩ c).2 := by
      generalize (perform ⟨.idle, r⟩ c).2 = s at hstate
      cases s
      cases hstate
      rfl
    rw [hs] at hlen hall hidle
    refine ⟨?_, ?_, ?_⟩
    · simp only [performAll, List.length_cons, hlen]
    · intro a ha
      simp only [performAll, List.mem_cons] at ha
      rcases ha with rfl | ha
      · exact hreply
      · exact hall a ha
    · exact hidle

/-- A refresh whose buffer calls the session is a refresh whose buffer does not. All the while the
session is scanning and turns each call away, which changes neither a buffer nor the session and draws
nothing. Behind the refresh the session is idle, whatever came of it. So in a run of calls on a new
session none is skipped, and behind each of them the session is idle. -/
theorem nested_calls_leave_no_trace (r : RandomStream) (t : Text) (calls : List Call)
    (refusal : Option EditError) (run : List Call) :
    let during : Session := ⟨.scanning, (Scan.ofText t r).2⟩
    let outer := perform ⟨.idle, r⟩ (.refresh t calls refusal)
    let alone := perform ⟨.idle, r⟩ (.refresh t [] refusal)
    (∀ i, performAll during (calls.take i) = ((calls.take i).map Call.turnedAway, during)) ∧
    outer.1.nested = nestedReplies r t calls ∧
    outer.1.reply = alone.1.reply ∧ outer.1.buffer = alone.1.buffer ∧ outer.2 = alone.2 ∧
    outer.1.reply ≠ .skipped ∧ outer.2.state = .idle ∧
    (performAll (start r) run).1.length = run.length ∧
    .skipped ∉ (performAll (start r) run).1.map Answer.reply ∧
    ∀ i, (performAll (start r) (run.take i)).2.state = .idle := by
  obtain ⟨reply, buffer, random, events, hne, hout⟩ := exists_outcome_refresh r t refusal
  obtain ⟨hlen, hall, -⟩ := performAll_idle r run
  intro during outer alone
  have ho : outer = (⟨reply, some buffer, nestedReplies r t calls, events calls⟩, ⟨.idle, random⟩) :=
    hout calls
  have ha : alone = (⟨reply, some buffer, nestedReplies r t [], events []⟩, ⟨.idle, random⟩) := hout []
  refine ⟨fun i => performAll_scanning _ _, ?_, ?_, ?_, ?_, ?_, ?_, hlen, ?_, fun i => ?_⟩
  · rw [ho]
  · rw [ho, ha]
  · rw [ho, ha]
  · rw [ho, ha]
  · rw [ho]; exact hne
  · rw [ho]
  · intro hmem
    obtain ⟨a, hmem, heq⟩ := List.mem_map.1 hmem
    exact hall a hmem heq
  · exact (performAll_idle r (run.take i)).2.2

end Session

end TunnelConf
