import TunnelConf.Proofs.Scan.Loop

/-!
# The keys that a scan tells

What a scan tells about keys is settled by the pairs of the text that assign a private key (`privatePairs`). The
first empty value is the one that a key is drawn for, and the public key comes from the first value that is valid or
is this empty one (`KeyComesFrom`). Main statement: `Scan.keys_of_first`.
-/

namespace TunnelConf

open Text Line

/-- The pairs of a text that assign a private key, in order. -/
def privatePairs (t : Text) : List LineMatch := (scanLines t).filter fun m => m.form.privateValue?.isSome

theorem mem_privatePairs {t : Text} {m : LineMatch} : m ∈ privatePairs t ↔ m ∈ scanLines t ∧
    ∃ p a, m.form = .pair p ∧ lower p.name = "privatekey".toList ∧ p.assignment = some a := by
  rw [privatePairs, List.mem_filter, Option.isSome_iff_exists]
  simp only [LineForm.privateValue?_eq_some_iff]
  constructor
  · rintro ⟨hm, v, p, a, hf, hp, ha, -⟩
    exact ⟨hm, p, a, hf, hp, ha⟩
  · rintro ⟨hm, p, a, hf, hp, ha⟩
    exact ⟨hm, a.value, p, a, hf, hp, ha, rfl⟩

theorem privateValues_eq_filterMap (t : Text) :
    privateValues t = (privatePairs t).filterMap fun m => m.form.privateValue? := by
  rw [privateValues, privatePairs, List.filterMap_filter]
  refine List.filterMap_congr fun m _ => ?_
  cases m.form.privateValue? <;> rfl

theorem nil_mem_privateValues_iff {t : Text} :
    [] ∈ privateValues t ↔ ∃ m ∈ privatePairs t, m.form.privateValue? = some [] := by
  rw [privateValues_eq_filterMap, List.mem_filterMap]

/-! ### Where a public key comes from -/

/-- The pair that a line stands for: that of its value, and for an empty value the one that is drawn. -/
inductive StandsFor (drawn : KeyPair) (m : LineMatch) : KeyPair → Prop
  | valid {v : Text} {pair : KeyPair} (hv : m.form.privateValue? = some v) (h : KeyPair.decode v = .ok pair) :
    StandsFor drawn m pair
  | empty (hv : m.form.privateValue? = some []) : StandsFor drawn m drawn

/-- The line `m`, behind the lines `front`, is one that a public key can come from: its value is valid, or it is the
first one with an empty value. -/
inductive KeyComesFrom (drawn : KeyPair) (front : List LineMatch) (m : LineMatch) : KeyPair → Prop
  | valid {v : Text} {pair : KeyPair} (hv : m.form.privateValue? = some v) (h : KeyPair.decode v = .ok pair) :
    KeyComesFrom drawn front m pair
  | firstEmpty (hv : m.form.privateValue? = some []) (hfront : ∀ l ∈ front, l.form.privateValue? ≠ some []) :
    KeyComesFrom drawn front m drawn

section

variable {drawn pair : KeyPair} {front : List LineMatch} {m : LineMatch}

theorem KeyComesFrom.standsFor (h : KeyComesFrom drawn front m pair) : StandsFor drawn m pair := by
  cases h with
  | valid hv h => exact .valid hv h
  | firstEmpty hv _ => exact .empty hv

/-- Behind lines that stand for nothing an empty value is the first one. -/
theorem StandsFor.keyComesFrom (h : StandsFor drawn m pair) (hfront : ∀ l ∈ front, ∀ q, ¬ StandsFor drawn l q) :
    KeyComesFrom drawn front m pair := by
  cases h with
  | valid hv h => exact .valid hv h
  | empty hv => exact .firstEmpty hv fun l hl hnil => hfront l hl drawn (.empty hnil)

/-- Where a line stands for a pair, a public key can come from this line or from one in front of it. -/
theorem forall_not_standsFor_iff {ms : List LineMatch} : (∀ l ∈ ms, ∀ q, ¬ StandsFor drawn l q) ↔
    ∀ front l back q, ms = front ++ l :: back → ¬ KeyComesFrom drawn front l q := by
  constructor
  · rintro h front l back q rfl hl
    exact h l (by simp) q hl.standsFor
  · intro h l hl q hq
    obtain ⟨front, first, back, hms, hfront, p, hp⟩ :=
      exists_first_of_mem (P := fun l => ∃ q, StandsFor drawn l q) hl ⟨q, hq⟩
    exact h front first back p hms (hp.keyComesFrom fun k hk q hq => hfront k hk ⟨q, hq⟩)

end

/-- What a line of a private key adds to the search for a public key. -/
def publicKey? (drawn : KeyPair) (m : LineMatch) : Option Text :=
  m.form.privateValue?.bind (Scan.publicOf (some drawn))

theorem publicKey?_eq_some_iff {drawn : KeyPair} {m : LineMatch} {k : Text} :
    publicKey? drawn m = some k ↔ ∃ pair, StandsFor drawn m pair ∧ k = pair.publicKey.encode := by
  rw [publicKey?, Option.bind_eq_some_iff]
  constructor
  · rintro ⟨v, hv, hk⟩
    rw [Scan.publicOf, Option.map_eq_some_iff] at hk
    obtain ⟨pair, hpair, rfl⟩ := hk
    refine ⟨pair, ?_, rfl⟩
    split at hpair
    · next he =>
      cases hpair
      exact .empty (by rw [hv, List.isEmpty_iff.1 he])
    · cases hd : KeyPair.decode v with
      | error e => rw [hd] at hpair; cases hpair
      | ok p => rw [hd] at hpair; cases hpair; exact .valid hv hd
  · rintro ⟨pair, h, rfl⟩
    cases h with
    | @valid v _ hv h =>
      -- an empty value is no key
      have hne : v.isEmpty = false := by
        cases v with
        | nil => cases h
        | cons c v => rfl
      exact ⟨v, hv, by rw [Scan.publicOf, hne, h]; rfl⟩
    | empty hv => exact ⟨[], hv, rfl⟩

theorem publicKey?_eq_none_iff {drawn : KeyPair} {m : LineMatch} :
    publicKey? drawn m = none ↔ ∀ pair, ¬ StandsFor drawn m pair := by
  constructor
  · intro h pair hpair
    have := publicKey?_eq_some_iff.2 ⟨pair, hpair, rfl⟩
    rw [h] at this
    cases this
  · intro h
    rw [Option.eq_none_iff_forall_ne_some]
    intro k hk
    obtain ⟨pair, hpair, -⟩ := publicKey?_eq_some_iff.1 hk
    exact h pair hpair

namespace Scan

/-- No value is empty where no pair is drawn. -/
theorem derivedPublic_ofText (t : Text) (r : RandomStream) : (ofText t r).1.derivedPublic =
    (privatePairs t).findSome? (publicKey? (KeyPair.generate r).1) := by
  have hpublic : (ofText t r).1.derivedPublic =
      (privateValues t).findSome? (publicOf (some (KeyPair.generate r).1)) := by
    by_cases h : [] ∈ privateValues t
    · obtain ⟨_, _, _, _, _, hf⟩ := exists_firstVacant h
      rw [hf.ofText, derivedPublic_build]
    · rw [ofText_of_not_mem h, derivedPublic_build]
      exact findSome?_publicOf (fun v hv hnil => h (hnil ▸ hv)) none (some (KeyPair.generate r).1)
  rw [hpublic, privateValues_eq_filterMap, ← List.head?_filterMap, List.filterMap_filterMap, List.head?_filterMap]
  rfl

/-- Keys are drawn, and put into the text, just where a value is empty. -/
theorem isSome_autofill_iff (t : Text) (r : RandomStream) :
    ((ofText t r).1.autofill.isSome = true ↔ [] ∈ privateValues t) ∧
    ((ofText t r).1.derivedPrivate.isSome = true ↔ [] ∈ privateValues t) := by
  by_cases h : [] ∈ privateValues t
  · obtain ⟨_, _, _, _, _, hf⟩ := exists_firstVacant h
    have hdrawn : (ofText t r).1.derivedPrivate = some (KeyPair.generate r).1.secret.encode := by rw [hf.ofText]; rfl
    simp [h, hf.autofill_ofText, hdrawn]
  · rw [ofText_of_not_mem h]
    simp [h, build]

theorem keySites_eq_filterMap (t : Text) : keySites t = (privatePairs t).filterMap KeySite.ofMatch? := by
  rw [keySites, privatePairs, List.filterMap_filter]
  refine List.filterMap_congr fun m _ => ?_
  rw [← KeySite.map_value_ofMatch?]
  cases KeySite.ofMatch? m <;> rfl

/-- The first empty value is the one that a key is drawn for. -/
theorem emptySite?_of_first {t : Text} {front back : List LineMatch} {m : LineMatch}
    (h : privatePairs t = front ++ m :: back) (hm : m.form.privateValue? = some [])
    (hfront : ∀ l ∈ front, l.form.privateValue? ≠ some []) :
    ∃ site, emptySite? t = some site ∧ m = ⟨site.offset, .pair site.pair⟩ ∧
      site.pair.assignment = some site.assignment ∧ site.assignment.value = [] := by
  obtain ⟨n, f⟩ := m
  obtain ⟨p, a, rfl, hp, ha, hv⟩ := LineForm.privateValue?_eq_some_iff.1 hm
  have hnone : (front.filterMap KeySite.ofMatch?).find? KeySite.isEmpty = none := by
    rw [List.find?_eq_none]
    intro s hs hempty
    obtain ⟨l, hl, hls⟩ := List.mem_filterMap.1 hs
    refine hfront l hl ?_
    rw [← KeySite.map_value_ofMatch?, hls]
    simpa [KeySite.isEmpty] using hempty
  refine ⟨⟨n, p, a⟩, ?_, rfl, ha, hv⟩
  rw [emptySite?, keySites_eq_filterMap, h, List.filterMap_append, List.find?_append, hnone, Option.none_or,
    List.filterMap_cons, KeySite.ofMatch?_pair n hp ha, List.find?_cons]
  simp [KeySite.isEmpty, hv]

theorem autofill_of_first {t : Text} {front back : List LineMatch} {m : LineMatch}
    (h : privatePairs t = front ++ m :: back) (hm : m.form.privateValue? = some [])
    (hfront : ∀ l ∈ front, l.form.privateValue? ≠ some []) (r : RandomStream) :
    (ofText t r).1.derivedPrivate = some (KeyPair.generate r).1.secret.encode ∧
    ∃ p fill, m.form = .pair p ∧ (ofText t r).1.autofill = some fill ∧
      p.valueSpan? m.offset = some ⟨fill.start, fill.len, .value⟩ ∧ fill.len = 0 := by
  obtain ⟨site, hsite, rfl, ha, hv⟩ := emptySite?_of_first h hm hfront
  have hbuild : (ofText t r).1 = build t (some (KeyPair.generate r).1) := by rw [ofText, hsite]; rfl
  obtain ⟨start, hspan⟩ : ∃ start, site.pair.valueSpan? site.offset = some ⟨start, 0, .value⟩ := by
    rw [Pair.valueSpan?, ha, Option.map_some, hv]
    exact ⟨_, rfl⟩
  have hvalue : site.pair.valueSpan site.offset = ⟨start, 0, .value⟩ := by
    rw [Pair.valueSpan, hspan, Option.getD_some]
  have hfill : (site.fill (KeyPair.generate r).1).start = start ∧ (site.fill (KeyPair.generate r).1).len = 0 := by
    rw [KeySite.fill, hvalue]
    exact ⟨rfl, Nat.sub_self _⟩
  rw [hbuild]
  refine ⟨rfl, site.pair, site.fill (KeyPair.generate r).1, rfl, by simp [build, hsite], ?_, hfill.2⟩
  rw [hspan, hfill.1, hfill.2]

/-! ### Main statement -/

/-- A scan goes down the lines once. It draws a key just where a private key is empty, for the first such value and
in its place, and it tells the public key of the first pair that one can come from: malformed values and later
empty ones are passed over. -/
theorem keys_of_first (t : Text) (r : RandomStream) :
    let s := (ofText t r).1
    let drawn := (KeyPair.generate r).1
    run t r = ⟨s.annotations, s.derivedPrivate, s.derivedPublic, s.autofill, (ofText t r).2⟩ ∧
    (∀ m, m ∈ privatePairs t ↔ m ∈ scanLines t ∧
      ∃ p a, m.form = .pair p ∧ lower p.name = "privatekey".toList ∧ p.assignment = some a) ∧
    (s.derivedPrivate.isSome = true ↔ ∃ m ∈ privatePairs t, m.form.privateValue? = some []) ∧
    (s.autofill.isSome = true ↔ ∃ m ∈ privatePairs t, m.form.privateValue? = some []) ∧
    (∀ front m back, privatePairs t = front ++ m :: back → m.form.privateValue? = some [] →
      (∀ l ∈ front, l.form.privateValue? ≠ some []) →
      s.derivedPrivate = some drawn.secret.encode ∧
      ∃ p fill, m.form = .pair p ∧ s.autofill = some fill ∧
        p.valueSpan? m.offset = some ⟨fill.start, fill.len, .value⟩ ∧ fill.len = 0) ∧
    (∀ k, s.derivedPublic = some k ↔ ∃ front m back pair, privatePairs t = front ++ m :: back ∧
      KeyComesFrom drawn front m pair ∧ k = pair.publicKey.encode ∧
      ∀ a l b q, front = a ++ l :: b → ¬ KeyComesFrom drawn a l q) ∧
    (s.derivedPublic = none ↔ ∀ front m back pair, privatePairs t = front ++ m :: back →
      ¬ KeyComesFrom drawn front m pair) := by
  intro s drawn
  obtain ⟨hfill, hprivate⟩ := isSome_autofill_iff t r
  rw [nil_mem_privateValues_iff] at hfill hprivate
  refine ⟨run_eq t r, fun m => mem_privatePairs, hprivate, hfill, fun front m back h hm hfront =>
    autofill_of_first h hm hfront r, fun k => ?_, ?_⟩
  · rw [derivedPublic_ofText, List.findSome?_eq_some_iff]
    constructor
    · rintro ⟨front, m, back, h, hm, hfront⟩
      obtain ⟨pair, hpair, hk⟩ := publicKey?_eq_some_iff.1 hm
      have hnone : ∀ l ∈ front, ∀ q, ¬ StandsFor drawn l q := fun l hl => publicKey?_eq_none_iff.1 (hfront l hl)
      exact ⟨front, m, back, pair, h, hpair.keyComesFrom hnone, hk, forall_not_standsFor_iff.1 hnone⟩
    · rintro ⟨front, m, back, pair, h, hpair, hk, hnone⟩
      refine ⟨front, m, back, h, publicKey?_eq_some_iff.2 ⟨pair, hpair.standsFor, hk⟩, fun l hl => ?_⟩
      exact publicKey?_eq_none_iff.2 (forall_not_standsFor_iff.2 hnone l hl)
  · rw [derivedPublic_ofText, List.findSome?_eq_none_iff, ← forall_not_standsFor_iff]
    simp only [publicKey?_eq_none_iff]
    rfl

/-- A malformed value in front of the first empty one, and an empty one behind it. -/
theorem keys_of_first_behind_malformed :
    let t := "PrivateKey = x\nprivatekey =\nPrivateKey = ".toList
    let s := (ofText t (.cycle [7])).1
    let drawn := (KeyPair.generate (.cycle [7])).1
    (∃ fill, s.autofill = some fill ∧ fill.start = 27 ∧ fill.len = 0) ∧
      s.derivedPrivate = some drawn.secret.encode ∧ s.derivedPublic = some drawn.publicKey.encode := by
  intro t s drawn
  let malformed : LineMatch := ⟨0, .pair ⟨[], "PrivateKey".toList, [' '], some ⟨[' '], ['x'], []⟩⟩⟩
  let empty : LineMatch := ⟨15, .pair ⟨[], "privatekey".toList, [' '], some ⟨[], [], []⟩⟩⟩
  let later : LineMatch := ⟨28, .pair ⟨[], "PrivateKey".toList, [' '], some ⟨[' '], [], []⟩⟩⟩
  have hpairs : privatePairs t = [malformed] ++ empty :: [later] := by decide +kernel
  have hempty : empty.form.privateValue? = some [] := by decide
  have hfront : ∀ l ∈ [malformed], l.form.privateValue? ≠ some [] := by decide
  obtain ⟨-, -, -, -, hfirst, hpublic, -⟩ := keys_of_first t (.cycle [7])
  obtain ⟨hprivate, p, fill, hp, hfill, hspan, hlen⟩ := hfirst _ _ _ hpairs hempty hfront
  refine ⟨⟨fill, hfill, ?_, hlen⟩, hprivate, (hpublic _).2
    ⟨[malformed], empty, [later], drawn, hpairs, .firstEmpty hempty hfront, rfl, ?_⟩⟩
  · obtain rfl := LineForm.pair.inj hp
    rw [hlen] at hspan
    exact (Span.mk.inj (Option.some.inj hspan)).1.symm
  · intro a l b q hsplit h
    have hl : l ∈ [malformed] := hsplit ▸ (by simp)
    obtain rfl := List.mem_singleton.1 hl
    cases h with
    | valid hv h =>
      obtain rfl := Option.some.inj hv
      cases h
    | firstEmpty hv _ => exact hfront _ hl hv

end Scan

end TunnelConf
