import TunnelConf.Proofs.Key.Encoded
import TunnelConf.Proofs.Scan.Matches
import TunnelConf.Scan

/-!
# Private keys of a text

`privateValues` lists what a text assigns to private keys, line by line (`privateValues_eq`). A scan
asks for a key for the first of these values that is empty: `FirstVacant` names its line. The key goes
behind the line, which then reads as the same pair with the key as its value
(`FirstVacant.ofVisual_filled`).
-/

namespace TunnelConf

open Text Line

/-! ### Values of private keys -/

theorem Rule.ofKey?_eq_privateKey_iff {key : Text} :
    ofKey? key = some .privateKey ↔ lower key = "privatekey".toList := by
  constructor
  · intro h
    obtain ⟨r, hr, hkey⟩ := Option.map_eq_some_iff.1 h
    have hmem := List.mem_of_find?_eq_some hr
    have hname := List.find?_some hr
    -- only the first entry of the registry has this rule
    have honly : ∀ r ∈ registry, r.1 = .privateKey → r.2 = ["privatekey"] := by decide
    rw [honly r hmem hkey] at hname
    simp only [List.any_cons, List.any_nil, Bool.or_false, beq_iff_eq] at hname
    exact hname.symm
  · intro h
    rw [ofKey?, h]
    decide

namespace LineForm

/-- What a line assigns to a private key. -/
def privateValue? : LineForm → Option Text
  | .pair p => if lower p.name = "privatekey".toList then p.assignment.map Assignment.value else none
  | _ => none

theorem privateValue?_eq_some_iff {f : LineForm} {v : Text} : f.privateValue? = some v ↔
    ∃ p a, f = .pair p ∧ lower p.name = "privatekey".toList ∧ p.assignment = some a ∧ a.value = v := by
  cases f with
  | comment lead marker rest => simp [privateValue?]
  | header lead name trail => simp [privateValue?]
  | pair p =>
    simp only [privateValue?]
    split
    · next h =>
      rw [Option.map_eq_some_iff]
      constructor
      · rintro ⟨a, ha, hv⟩; exact ⟨p, a, rfl, h, ha, hv⟩
      · rintro ⟨q, a, hq, -, ha, hv⟩; cases hq; exact ⟨a, ha, hv⟩
    · next h =>
      constructor
      · intro hn; cases hn
      · rintro ⟨q, a, hq, hn, -⟩; cases hq; exact absurd hn h

end LineForm

/-- What a line assigns to a private key, given without its ending. -/
def privateValue? (body : Text) : Option Text := (LineForm.ofBody? body).bind LineForm.privateValue?

/-- What a text assigns to private keys, in order. -/
def privateValues (t : Text) : List Text := (scanLines t).filterMap fun m => m.form.privateValue?

theorem privateValues_eq (t : Text) : privateValues t = (ofVisual t).filterMap fun l => privateValue? l.body := by
  rw [privateValues, LineMatch.scanLines_eq_ofLines, LineMatch.filterMap_ofLines]
  rfl

/-! ### Sites of private keys -/

namespace KeySite

theorem map_value_ofMatch? (m : LineMatch) :
    (ofMatch? m).map (fun s => s.assignment.value) = m.form.privateValue? := by
  obtain ⟨n, f⟩ := m
  cases f with
  | comment lead marker rest => rfl
  | header lead name trail => rfl
  | pair p =>
    simp only [ofMatch?, LineForm.privateValue?, Rule.ofKey?_eq_privateKey_iff]
    split
    · rw [Option.map_map]; rfl
    · rfl

theorem ofMatch?_pair (n : Nat) {p : Pair} {a : Assignment} (hp : lower p.name = "privatekey".toList)
    (ha : p.assignment = some a) : ofMatch? ⟨n, .pair p⟩ = some ⟨n, p, a⟩ := by
  simp [ofMatch?, Rule.ofKey?_eq_privateKey_iff.2 hp, ha]

end KeySite

namespace Scan

theorem map_value_keySites (t : Text) :
    (keySites t).map (fun s => s.assignment.value) = privateValues t := by
  rw [keySites, List.map_filterMap, privateValues]
  simp only [KeySite.map_value_ofMatch?]

/-- The public key for a value. An empty one stands for the generated pair. -/
def publicOf (generated : Option KeyPair) (v : Text) : Option Text :=
  (if v.isEmpty then generated else (KeyPair.decode v).toOption).map fun pair => pair.publicKey.encode

theorem derivedPublic_build (t : Text) (generated : Option KeyPair) :
    (build t generated).derivedPublic = (privateValues t).findSome? (publicOf generated) := by
  have hsite : ∀ s : KeySite, s.publicKey? generated = publicOf generated s.assignment.value := by
    intro s
    rw [KeySite.publicKey?, publicOf, KeySite.isEmpty]
    split
    · rfl
    · rfl
  rw [← map_value_keySites, List.findSome?_map]
  exact congrArg (fun f => (keySites t).findSome? f) (funext hsite)

/-- Values that are not empty have public keys of their own. -/
theorem findSome?_publicOf {values : List Text} (h : ∀ v ∈ values, v ≠ []) (generated generated' : Option KeyPair) :
    values.findSome? (publicOf generated) = values.findSome? (publicOf generated') := by
  induction values with
  | nil => rfl
  | cons v vs ih =>
    obtain ⟨hv, hvs⟩ := List.forall_mem_cons.1 h
    have heq : publicOf generated v = publicOf generated' v := by simp [publicOf, hv]
    rw [List.findSome?_cons, List.findSome?_cons, heq, ih hvs]

theorem emptySite?_eq_none_iff {t : Text} : emptySite? t = none ↔ [] ∉ privateValues t := by
  rw [emptySite?, List.find?_eq_none, ← map_value_keySites]
  simp [KeySite.isEmpty]

end Scan

/-! ### Empty values -/

/-- The space that keeps a key apart from the equals sign, unless there is one. -/
def Assignment.spaced (a : Assignment) : Text := if a.after.isEmpty then [' '] else a.after

/-- What a key looks like behind an empty value. -/
def Assignment.written (a : Assignment) (key : Text) : Text := if a.after.isEmpty then ' ' :: key else key

namespace Pair

/-- A private key with an empty value. -/
structure Vacant (p : Pair) (a : Assignment) : Prop where
  fits : p.Fits
  privateKey : lower p.name = "privatekey".toList
  assignment : p.assignment = some a
  empty : a.value = []

/-- The pair with a key for its value. -/
def withKey (p : Pair) (a : Assignment) (key : Text) : Pair :=
  { p with assignment := some ⟨a.spaced, key, []⟩ }

variable {p : Pair} {a : Assignment} (k : Key)

namespace Vacant

theorem trail_nil (h : p.Vacant a) : a.trail = [] := (h.fits.assignment a h.assignment).trail_nil h.empty

theorem privateValue?_render (h : p.Vacant a) : privateValue? p.render = some [] := by
  rw [privateValue?, LineForm.ofBody?_pair h.fits]
  exact LineForm.privateValue?_eq_some_iff.2 ⟨p, a, rfl, h.privateKey, h.assignment, h.empty⟩

theorem fits_withKey (h : p.Vacant a) : (p.withKey a k.encode).Fits := by
  have hafter := (h.fits.assignment a h.assignment).after
  refine ⟨h.fits.lead, h.fits.name, h.fits.name_ne, h.fits.gap, ?_⟩
  rintro b ⟨⟩
  refine ⟨?_, k.trimmed_encode.stops_isBlank, k.trimmed_encode.endStops_isBlank, by simp,
    fun hnil => absurd hnil k.encode_ne_nil⟩
  intro c hc
  simp only [Assignment.spaced] at hc
  split at hc
  · obtain rfl := List.mem_singleton.1 hc; rfl
  · exact hafter c hc

theorem ofBody?_withKey (h : p.Vacant a) :
    LineForm.ofBody? (p.withKey a k.encode).render = some (.pair (p.withKey a k.encode)) :=
  LineForm.ofBody?_pair (h.fits_withKey k)

theorem privateValue?_withKey (h : p.Vacant a) :
    privateValue? (p.withKey a k.encode).render = some k.encode := by
  rw [privateValue?, h.ofBody?_withKey]
  exact LineForm.privateValue?_eq_some_iff.2
    ⟨p.withKey a k.encode, ⟨a.spaced, k.encode, []⟩, rfl, h.privateKey, rfl, rfl⟩

/-- A key is written behind the line. -/
theorem render_withKey (h : p.Vacant a) :
    (p.withKey a k.encode).render = p.render ++ a.written k.encode := by
  simp only [render, withKey, h.assignment, Option.elim_some, Assignment.render, h.empty, h.trail_nil,
    Assignment.spaced, Assignment.written]
  split
  · next hn => simp [List.isEmpty_iff.1 hn]
  · simp

/-- The value sits at the end of the line. -/
theorem valueSpan? (h : p.Vacant a) (n : Nat) : p.valueSpan? n = some ⟨n + size p.render, 0, .value⟩ := by
  have he : ('=' : Char).utf8Size = 1 := rfl
  simp only [Pair.valueSpan?, keySpan, Span.stop, render, h.assignment, Option.map_some,
    Option.elim_some, Assignment.render, h.empty, h.trail_nil, List.append_nil, size_append, size_cons,
    size_nil, he, Option.some.injEq, Span.mk.injEq, and_true]
  omega

theorem valueSpan?_withKey (h : p.Vacant a) (n : Nat) : (p.withKey a k.encode).valueSpan? n =
    some ⟨n + size p.render + size (a.written k.encode) - 44, 44, .value⟩ := by
  have he : ('=' : Char).utf8Size = 1 := rfl
  have hsize := congrArg size (h.render_withKey k)
  simp only [render, withKey, Option.elim_some, Assignment.render, size_append, size_cons, size_nil, he,
    k.size_encode] at hsize
  simp only [Pair.valueSpan?, keySpan, Span.stop, withKey, Option.map_some, Option.some.injEq,
    Span.mk.injEq, k.size_encode, and_true, render, size_append]
  omega

/-- The line ends with the equals sign if nothing follows that. -/
theorem written_eq (h : p.Vacant a) (key : Text) :
    a.written key = if p.render.getLast? = some '=' then ' ' :: key else key := by
  have hafter := (h.fits.assignment a h.assignment).after
  have hr : p.render = p.lead ++ p.name ++ p.gap ++ ('=' :: a.after) := by
    simp [render, h.assignment, Assignment.render, h.empty, h.trail_nil]
  rw [hr, List.getLast?_append_of_ne_nil _ (List.cons_ne_nil _ _), Assignment.written]
  rcases List.eq_nil_or_concat a.after with hn | ⟨b, c, hb⟩
  · simp [hn]
  · have hc : c ≠ '=' := by
      rintro rfl
      exact absurd (hafter '=' (by simp [hb])) (by decide)
    rw [hb, List.concat_eq_append, ← List.cons_append, List.getLast?_concat]
    simp [hc]

end Vacant

end Pair

theorem privateValue?_eq_some_nil_iff {body : Text} :
    privateValue? body = some [] ↔ ∃ p a, p.render = body ∧ Pair.Vacant p a := by
  constructor
  · intro h
    obtain ⟨f, hf, hv⟩ := Option.bind_eq_some_iff.1 h
    obtain ⟨p, a, rfl, hp, ha, he⟩ := LineForm.privateValue?_eq_some_iff.1 hv
    obtain ⟨rfl, hfit⟩ := LineForm.ofBody?_eq_some_iff.1 hf
    exact ⟨p, a, rfl, hfit, hp, ha, he⟩
  · rintro ⟨p, a, rfl, h⟩
    exact h.privateValue?_render

/-! ### The first empty value -/

/-- `p`, ended by `e`, is the first line with an empty private key. -/
structure FirstVacant (t : Text) (before : List Line) (p : Pair) (a : Assignment) (e : Ending)
    (after : List Line) : Prop where
  lines : ofVisual t = before ++ ⟨p.render, e⟩ :: after
  vacant : p.Vacant a
  none_before : ∀ l ∈ before, privateValue? l.body ≠ some []

theorem exists_firstVacant {t : Text} (h : [] ∈ privateValues t) :
    ∃ before p a e after, FirstVacant t before p a e after := by
  rw [privateValues_eq, List.mem_filterMap] at h
  obtain ⟨l, hl, hv⟩ := h
  obtain ⟨before, ⟨body, e⟩, after, hls, hb, hm⟩ :=
    exists_first_of_mem (P := fun l => privateValue? l.body = some []) hl hv
  obtain ⟨p, a, rfl, hp⟩ := privateValue?_eq_some_nil_iff.1 hm
  exact ⟨before, p, a, e, after, hls, hp, hb⟩

namespace FirstVacant

variable {t : Text} {before after : List Line} {p : Pair} {a : Assignment} {e : Ending} (k : Key)

theorem isBody_withKey (h : FirstVacant t before p a e after) : IsBody (p.withKey a k.encode).render := by
  have hp : IsBody p.render := (proper_ofVisual t).isBody ⟨p.render, e⟩ (by simp [h.lines])
  rw [h.vacant.render_withKey, isBody_append]
  refine ⟨hp, ?_⟩
  rw [Assignment.written]
  split
  · exact isBody_cons.2 ⟨by decide, k.isBody_encode⟩
  · exact k.isBody_encode

theorem text_eq (h : FirstVacant t before p a e after) :
    t = textOf before ++ p.render ++ (e.text ++ textOf after) := by
  have ht := textOf_ofVisual t
  rw [h.lines, textOf_append, textOf_cons, Line.text] at ht
  simpa using ht.symm

theorem emptySite? (h : FirstVacant t before p a e after) :
    Scan.emptySite? t = some ⟨size (textOf before), p, a⟩ := by
  have hnone : (((LineMatch.ofLines 0 before).filterMap KeySite.ofMatch?).find? KeySite.isEmpty) = none := by
    rw [List.find?_eq_none]
    intro s hs hempty
    obtain ⟨m, hm, hms⟩ := List.mem_filterMap.1 hs
    obtain ⟨b, l, c, rfl, hl, -⟩ := LineMatch.exists_line_of_mem_ofLines hm
    have hv := KeySite.map_value_ofMatch? m
    rw [hms] at hv
    refine h.none_before l (by simp) ?_
    rw [privateValue?, hl, Option.bind_some, ← hv]
    simpa [KeySite.isEmpty] using hempty
  have hf : LineForm.ofBody? p.render = some (.pair p) := LineForm.ofBody?_pair h.vacant.fits
  rw [Scan.emptySite?, Scan.keySites, LineMatch.scanLines_of_lines h.lines, hf]
  simp only [Option.map_some, Option.toList_some, List.filterMap_append, List.filterMap_cons,
    List.filterMap_nil, KeySite.ofMatch?_pair _ h.vacant.privateKey h.vacant.assignment, List.find?_append,
    hnone]
  simp [KeySite.isEmpty, h.vacant.empty]

/-- The splice that writes a key behind the line. -/
def splice (before : List Line) (p : Pair) (a : Assignment) (k : Key) : Splice :=
  .insert (size (textOf before) + size p.render) (a.written k.encode)

theorem fill (h : FirstVacant t before p a e after) (pair : KeyPair) :
    (KeySite.mk (size (textOf before)) p a).fill pair = splice before p a pair.secret := by
  have hv : p.valueSpan (size (textOf before)) = ⟨size (textOf before) + size p.render, 0, .value⟩ := by
    rw [Pair.valueSpan, h.vacant.valueSpan?]
    rfl
  rw [KeySite.fill, hv]
  rfl

/-- The text with a key behind the line. -/
def filled (before : List Line) (p : Pair) (a : Assignment) (e : Ending) (after : List Line) (k : Key) : Text :=
  textOf (before ++ ⟨(p.withKey a k.encode).render, e⟩ :: after)

theorem apply (h : FirstVacant t before p a e after) :
    (splice before p a k).apply t = .ok (filled before p a e after k) := by
  have happly := Splice.apply_replace (textOf before ++ p.render) [] (e.text ++ textOf after)
    (a.written k.encode)
  rw [List.append_nil, ← h.text_eq, size_append, size_nil, Nat.add_zero] at happly
  rw [splice, Splice.insert, happly, filled, textOf_append, textOf_cons, Line.text, h.vacant.render_withKey]
  simp

theorem ofVisual_filled (h : FirstVacant t before p a e after) :
    ofVisual (filled before p a e after k) = before ++ ⟨(p.withKey a k.encode).render, e⟩ :: after := by
  have hp := proper_ofVisual t
  rw [h.lines] at hp
  refine ofVisual_of_proper (hp.replace (h.isBody_withKey k) ?_)
  simp [Pair.render, Pair.withKey, h.vacant.fits.name_ne]

/-- The values around the first empty one. -/
theorem privateValues_eq (h : FirstVacant t before p a e after) :
    privateValues t = before.filterMap (fun l => privateValue? l.body) ++
      [] :: after.filterMap fun l => privateValue? l.body := by
  rw [TunnelConf.privateValues_eq, h.lines, List.filterMap_append, List.filterMap_cons,
    h.vacant.privateValue?_render]

theorem privateValues_filled (h : FirstVacant t before p a e after) :
    privateValues (filled before p a e after k) = before.filterMap (fun l => privateValue? l.body) ++
      k.encode :: after.filterMap fun l => privateValue? l.body := by
  rw [TunnelConf.privateValues_eq, h.ofVisual_filled, List.filterMap_append, List.filterMap_cons,
    h.vacant.privateValue?_withKey]

end FirstVacant

end TunnelConf
