import TunnelConf.Proofs.Scan.DerivedKey

/-!
# A scan line by line

A scan can go down the lines of a text once and keep what it has found out so far (`Scan.Progress`): a pair is drawn
for the first empty private key, and a public key is kept once there is one. Main statement: `Scan.run_eq`, this
comes to what the scan of the text is. What a step does is told by what has been reached before it
(`Scan.Progress.step_reached`).
-/

namespace TunnelConf

open Text Line

namespace Rule

/-- Only the rule for private keys has more to say about a value than what is wrong with it. -/
theorem validate_of_ne {r : Rule} (h : r ≠ .privateKey) (value : Text) (s : Span) :
    (r.validate value s).wantsKey = false ∧ (r.validate value s).publicKey = none := by
  cases r with
  | privateKey => exact absurd rfl h
  | base64Key => simp only [validate]; split <;> exact ⟨rfl, rfl⟩
  | endpoint => simp only [validate]; split <;> exact ⟨rfl, rfl⟩
  | numeric => simp only [validate]; split <;> exact ⟨rfl, rfl⟩
  | addressList => exact ⟨rfl, rfl⟩
  | dnsList => exact ⟨rfl, rfl⟩
  | pathList => exact ⟨rfl, rfl⟩
  | freeText => exact ⟨rfl, rfl⟩

theorem wantsKey_validate_privateKey (value : Text) (s : Span) :
    (privateKey.validate value s).wantsKey = value.isEmpty := by
  rw [validate]
  split
  · next h => exact h.symm
  · next h =>
    rw [Bool.not_eq_true] at h
    rw [h]
    split <;> rfl

theorem publicKey_validate_privateKey {value : Text} (h : value.isEmpty = false) (s : Span) :
    (privateKey.validate value s).publicKey =
      (KeyPair.decode value).toOption.map fun pair => pair.publicKey.encode := by
  rw [validate, h]
  cases KeyPair.decode value <;> rfl

end Rule

namespace Scan

/-- What a scan has found out on its way down a text. -/
@[ext] structure Progress where
  annotations : List Annotation
  derivedPrivate : Option Text
  derivedPublic : Option Text
  autofill : Option Splice
  random : RandomStream

namespace Progress

/-- Draws a pair for the value at a span. The key is set apart from an equals sign right in front of it. -/
def draw (t : Text) (value : Span) (s : Progress) : Progress :=
  let (pair, random) := KeyPair.generate s.random
  let key := pair.secret.encode
  let front := (cut? value.start t).elim [] Prod.fst
  { s with
    derivedPrivate := some key
    derivedPublic := s.derivedPublic.or (some pair.publicKey.encode)
    autofill := some (.replace value.start value.stop (if front.getLast? = some '=' then ' ' :: key else key))
    random }

/-- Takes in what a rule says about the value at a span. -/
def hear (t : Text) (value : Span) (v : Verdict) (s : Progress) : Progress :=
  if v.wantsKey then
    if s.autofill.isNone then s.draw t value else s
  else if s.derivedPublic.isNone then { s with derivedPublic := v.publicKey }
  else s

/-- Takes in the next line. -/
def step (t : Text) (s : Progress) (m : LineMatch) : Progress :=
  let s := { s with annotations := s.annotations ++ annotate m }
  match m.form with
  | .pair p =>
    match Rule.ofKey? p.name with
    | some rule =>
      s.hear t (p.valueSpan m.offset) ((p.valueSpan? m.offset).elim .accept (rule.validate p.valueText))
    | none => s
  | _ => s

end Progress

/-- What is known behind the last line. -/
def run (t : Text) (r : RandomStream) : Progress := (scanLines t).foldl (Progress.step t) ⟨[], none, none, none, r⟩

/-! ### One line -/

namespace Progress

variable {t : Text} {m : LineMatch} {site : KeySite}

theorem hear_of_silent {v : Verdict} (hw : v.wantsKey = false) (hp : v.publicKey = none) (value : Span)
    (s : Progress) : s.hear t value v = s := by
  rw [hear, hw, hp]
  cases hpublic : s.derivedPublic with
  | none => simp [← hpublic]
  | some k => simp

/-- A line that assigns no private key is annotated and nothing else. -/
theorem step_of_none (h : KeySite.ofMatch? m = none) (s : Progress) :
    s.step t m = { s with annotations := s.annotations ++ annotate m } := by
  obtain ⟨n, f⟩ := m
  cases f with
  | comment lead marker rest => rfl
  | header lead name trail => rfl
  | pair p =>
    simp only [step]
    split
    · next rule hrule =>
      by_cases hkey : rule = .privateKey
      · -- without an equals sign there is no value that the rule could be asked about
        have hnone : p.assignment = none := by
          simpa [KeySite.ofMatch?, hrule, hkey] using h
        rw [Pair.valueSpan?, hnone]
        exact hear_of_silent rfl rfl _ _
      · cases hv : p.valueSpan? n with
        | none => exact hear_of_silent rfl rfl _ _
        | some value =>
          obtain ⟨hw, hp⟩ := Rule.validate_of_ne hkey p.valueText value
          exact hear_of_silent hw hp _ _
    · rfl

theorem eq_of_ofMatch? (h : KeySite.ofMatch? m = some site) : m = ⟨site.offset, .pair site.pair⟩ ∧
    Rule.ofKey? site.pair.name = some .privateKey ∧ site.pair.assignment = some site.assignment := by
  obtain ⟨n, f⟩ := m
  cases f with
  | comment lead marker rest => cases h
  | header lead name trail => cases h
  | pair p =>
    simp only [KeySite.ofMatch?] at h
    split at h
    · next hrule =>
      obtain ⟨a, ha, rfl⟩ := Option.map_eq_some_iff.1 h
      exact ⟨rfl, hrule, ha⟩
    · cases h

theorem step_of_some (h : KeySite.ofMatch? m = some site) (s : Progress) :
    ∃ v : Verdict, v.wantsKey = site.isEmpty ∧ (site.isEmpty = false → v.publicKey = site.publicKey? none) ∧
      s.step t m =
        { s with annotations := s.annotations ++ annotate m }.hear t (site.pair.valueSpan site.offset) v := by
  obtain ⟨rfl, hrule, ha⟩ := eq_of_ofMatch? h
  have hv : site.pair.valueSpan? site.offset = some (site.pair.valueSpan site.offset) := by
    rw [Pair.valueSpan, Pair.valueSpan?, ha]
    rfl
  have htext : site.pair.valueText = site.assignment.value := by rw [Pair.valueText, ha]; rfl
  refine ⟨Rule.privateKey.validate site.assignment.value (site.pair.valueSpan site.offset),
    Rule.wantsKey_validate_privateKey _ _, fun hne => ?_, ?_⟩
  · rw [Rule.publicKey_validate_privateKey hne, KeySite.publicKey?, hne]
    rfl
  · simp only [step, hrule]
    rw [hv, htext]
    rfl

/-- Whether the key needs a space can be seen from the text or from the pair. -/
theorem autofill_draw (hm : m ∈ scanLines t) (h : KeySite.ofMatch? m = some site) (he : site.isEmpty = true)
    (s : Progress) : (s.draw t (site.pair.valueSpan site.offset)).autofill =
      some (site.fill (KeyPair.generate s.random).1) := by
  obtain ⟨rfl, hrule, ha⟩ := eq_of_ofMatch? h
  rw [LineMatch.scanLines_eq_ofLines] at hm
  obtain ⟨before, l, after, hls, hf, hoff⟩ := LineMatch.exists_line_of_mem_ofLines hm
  obtain ⟨hrender, hfits⟩ := LineForm.ofBody?_eq_some_iff.1 hf
  have hoff : site.offset = size (textOf before) := by simpa using hoff
  have hvacant : site.pair.Vacant site.assignment :=
    ⟨hfits, Rule.ofKey?_eq_privateKey_iff.1 hrule, ha, List.isEmpty_iff.1 he⟩
  have hvalue : site.pair.valueSpan site.offset = ⟨site.offset + size site.pair.render, 0, .value⟩ := by
    rw [Pair.valueSpan, hvacant.valueSpan?]
    rfl
  have ht : t = textOf before ++ site.pair.render ++ (l.ending.text ++ textOf after) := by
    have ht := textOf_ofVisual t
    rw [hls, textOf_append, textOf_cons, Line.text, ← hrender] at ht
    simpa [LineForm.render] using ht.symm
  have hcut : cut? (site.offset + size site.pair.render) t =
      some (textOf before ++ site.pair.render, l.ending.text ++ textOf after) :=
    cut?_eq_some_iff.2 ⟨ht, by rw [size_append, hoff]⟩
  have hne : site.pair.render ≠ [] := by simp [Pair.render, hfits.name_ne]
  rw [KeySite.fill, draw]
  simp only [hvalue, hcut, Option.elim_some, List.getLast?_append_of_ne_nil _ hne, ← hvacant.written_eq]
  rfl

/-! ### All lines up to one -/

/-- What is known behind some lines: where the first empty private key is, and which public key comes first. -/
def reached (r : RandomStream) (ms : List LineMatch) : Progress :=
  let sites := ms.filterMap KeySite.ofMatch?
  let empty? := sites.find? KeySite.isEmpty
  let (pair, random) := KeyPair.generate r
  ⟨ms.flatMap annotate, empty?.map fun _ => pair.secret.encode,
    sites.findSome? (KeySite.publicKey? (empty?.map fun _ => pair)), empty?.map fun site => site.fill pair,
    if empty?.isSome then random else r⟩

theorem reached_eq_of_find? {r : RandomStream} {ms : List LineMatch} {empty? : Option KeySite}
    (h : (ms.filterMap KeySite.ofMatch?).find? KeySite.isEmpty = empty?) :
    reached r ms = ⟨ms.flatMap annotate, empty?.map fun _ => (KeyPair.generate r).1.secret.encode,
      (ms.filterMap KeySite.ofMatch?).findSome? (KeySite.publicKey? (empty?.map fun _ => (KeyPair.generate r).1)),
      empty?.map fun site => site.fill (KeyPair.generate r).1,
      if empty?.isSome then (KeyPair.generate r).2 else r⟩ := by
  subst h
  rfl

theorem publicKey?_of_not_empty {s : KeySite} (h : s.isEmpty = false) (generated : Option KeyPair) :
    s.publicKey? generated = s.publicKey? none := by
  rw [KeySite.publicKey?, KeySite.publicKey?, h]
  rfl

theorem publicKey?_of_empty {s : KeySite} (h : s.isEmpty = true) (pair : KeyPair) :
    s.publicKey? (some pair) = some pair.publicKey.encode := by
  rw [KeySite.publicKey?, h]
  rfl

/-- In front of the first empty value the pair that is drawn for it does not count. -/
theorem findSome?_publicKey?_of_not_empty {sites : List KeySite} (h : sites.find? KeySite.isEmpty = none)
    (generated : Option KeyPair) :
    sites.findSome? (KeySite.publicKey? generated) = sites.findSome? (KeySite.publicKey? none) := by
  induction sites with
  | nil => rfl
  | cons s sites ih =>
    rw [List.find?_cons] at h
    cases he : s.isEmpty with
    | true => rw [he] at h; cases h
    | false =>
      rw [he] at h
      rw [List.findSome?_cons, List.findSome?_cons, publicKey?_of_not_empty he, ih h]

/-- Behind an empty value there is a public key. -/
theorem isSome_findSome?_publicKey? {sites : List KeySite} {site : KeySite}
    (h : sites.find? KeySite.isEmpty = some site) (pair : KeyPair) :
    (sites.findSome? (KeySite.publicKey? (some pair))).isSome = true := by
  rw [List.findSome?_isSome_iff]
  exact ⟨site, List.mem_of_find?_eq_some h, by rw [publicKey?_of_empty (List.find?_some h)]; rfl⟩

/-- One more line behind those that have been taken in. -/
theorem step_reached (hm : m ∈ scanLines t) (r : RandomStream) (ms : List LineMatch) :
    (reached r ms).step t m = reached r (ms ++ [m]) := by
  have hannotations : (ms ++ [m]).flatMap annotate = ms.flatMap annotate ++ annotate m := by simp
  cases hsite : KeySite.ofMatch? m with
  | none =>
    have hsites : (ms ++ [m]).filterMap KeySite.ofMatch? = ms.filterMap KeySite.ofMatch? := by simp [hsite]
    rw [step_of_none hsite, reached, reached, hsites, hannotations]
  | some site =>
    obtain ⟨v, hwants, hpublic, hstep⟩ := step_of_some (t := t) hsite (reached r ms)
    have hsites : (ms ++ [m]).filterMap KeySite.ofMatch? = ms.filterMap KeySite.ofMatch? ++ [site] := by simp [hsite]
    have hfind : ((ms ++ [m]).filterMap KeySite.ofMatch?).find? KeySite.isEmpty =
        ((ms.filterMap KeySite.ofMatch?).find? KeySite.isEmpty).or ([site].find? KeySite.isEmpty) := by
      rw [hsites, List.find?_append]
    rw [hstep, hear, hwants]
    cases hempty : (ms.filterMap KeySite.ofMatch?).find? KeySite.isEmpty with
    | some first =>
      rw [hempty, Option.some_or] at hfind
      rw [reached_eq_of_find? hempty, reached_eq_of_find? hfind, hannotations, hsites, List.findSome?_append]
      obtain ⟨k, hk⟩ := Option.isSome_iff_exists.1 (isSome_findSome?_publicKey? hempty (KeyPair.generate r).1)
      simp [hk]
    | none =>
      rw [hempty, Option.none_or] at hfind
      cases he : site.isEmpty with
      | true =>
        have hfirst : [site].find? KeySite.isEmpty = some site := by simp [he]
        rw [hfirst] at hfind
        have hpublic : (KeySite.publicKey? (some (KeyPair.generate r).1) site) =
            some (KeyPair.generate r).1.publicKey.encode := publicKey?_of_empty he _
        rw [reached_eq_of_find? hempty, reached_eq_of_find? hfind, hannotations, hsites, List.findSome?_append]
        refine Progress.ext rfl rfl ?_ (autofill_draw hm hsite he _) rfl
        simp [draw, hpublic, findSome?_publicKey?_of_not_empty hempty]
      | false =>
        have hfirst : [site].find? KeySite.isEmpty = none := by simp [he]
        rw [hfirst] at hfind
        rw [reached_eq_of_find? hempty, reached_eq_of_find? hfind, hannotations, hsites, List.findSome?_append,
          hpublic he]
        cases hkey : (ms.filterMap KeySite.ofMatch?).findSome? (KeySite.publicKey? none) with
        | none => simp [hkey]
        | some k => simp [hkey]

theorem foldl_step_reached {rest : List LineMatch} (hrest : ∀ m ∈ rest, m ∈ scanLines t) (r : RandomStream)
    (ms : List LineMatch) : rest.foldl (step t) (reached r ms) = reached r (ms ++ rest) := by
  induction rest generalizing ms with
  | nil => rw [List.append_nil, List.foldl_nil]
  | cons m rest ih =>
    obtain ⟨hm, hrest⟩ := List.forall_mem_cons.1 hrest
    rw [List.foldl_cons, step_reached hm, ih hrest, List.append_assoc]
    rfl

end Progress

theorem run_eq_reached (t : Text) (r : RandomStream) : run t r = Progress.reached r (scanLines t) :=
  Progress.foldl_step_reached (fun _ h => h) r []

/-- Going down the lines once comes to the scan of the text, and to the random bytes that it leaves. -/
theorem run_eq (t : Text) (r : RandomStream) : run t r =
    ⟨(ofText t r).1.annotations, (ofText t r).1.derivedPrivate, (ofText t r).1.derivedPublic,
      (ofText t r).1.autofill, (ofText t r).2⟩ := by
  have hfind : ((scanLines t).filterMap KeySite.ofMatch?).find? KeySite.isEmpty = emptySite? t := rfl
  rw [run_eq_reached, Progress.reached_eq_of_find? hfind, ofText]
  cases h : emptySite? t with
  | none => simp [build, keySites]
  | some site => simp [build, h, keySites]

/-- What is known behind the last line is all that a scan tells. -/
theorem ofText_eq_of_run_eq {t u : Text} {r : RandomStream} (h : run u r = run t r) : ofText u r = ofText t r := by
  rw [run_eq, run_eq] at h
  generalize ofText u r = x at h ⊢
  generalize ofText t r = y at h ⊢
  obtain ⟨⟨annotations, derivedPrivate, derivedPublic, autofill⟩, random⟩ := x
  obtain ⟨hannotations, hprivate, hpublic, hfill, hrandom⟩ := Progress.mk.inj h
  subst hannotations hprivate hpublic hfill hrandom
  rfl

end Scan

end TunnelConf
