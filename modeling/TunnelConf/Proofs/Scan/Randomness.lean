import TunnelConf.Proofs.Scan.DerivedKey

/-!
# What a scan has from random bytes

A scan of a text with an empty private key draws 32 bytes, makes a pair of them and tells that in a few places; all
else comes from the text (`ofText_of_mem`). Scans of other texts draw nothing. Main statement: `scans_differ_in_pair`,
about two scans of a text.
-/

namespace TunnelConf

open Text Line

/-- What is written for a key, with the space in front of it where one is needed. -/
theorem Assignment.written_eq_append (a : Assignment) (key : Text) :
    a.written key = (if a.after.isEmpty then [' '] else []) ++ key := by
  rw [written]
  split
  · rfl
  · rfl

/-- Where a splice starts, how much it replaces and where it leaves the cursor. -/
def Splice.place (s : Splice) : Nat × Nat × Nat := (s.start, s.len, s.cursor)

namespace Scan

/-- The scan for which a pair was drawn. Its private key is in the splice; its public key counts if there is none
in front of the first empty value. -/
def withDrawn (t : Text) (front : List Text) (start : Nat) (gap : Text) (drawn : KeyPair) : Scan where
  annotations := (scanLines t).flatMap annotate
  derivedPrivate := some drawn.secret.encode
  derivedPublic := some ((firstKey? front).getD drawn).publicKey.encode
  autofill := some (.insert start (gap ++ drawn.secret.encode))

variable {t : Text}

theorem ofText_of_mem (h : [] ∈ privateValues t) : ∃ front back start gap,
    privateValues t = front ++ [] :: back ∧ [] ∉ front ∧
    ∀ r, ofText t r = (withDrawn t front start gap (KeyPair.generate r).1, r.advance 32) := by
  obtain ⟨before, p, a, e, after, hf⟩ := exists_firstVacant h
  have hfront : [] ∉ before.filterMap fun l => privateValue? l.body := fun hmem => by
    obtain ⟨l, hl, hv⟩ := List.mem_filterMap.1 hmem
    exact hf.none_before l hl hv
  refine ⟨_, _, size (textOf before) + size p.render, if a.after.isEmpty then [' '] else [],
    hf.privateValues_eq, hfront, fun r => ?_⟩
  have hpublic := derivedPublic_of_split hf.privateValues_eq hfront r
  have hautofill := hf.autofill_ofText r
  rw [FirstVacant.splice, Assignment.written_eq_append] at hautofill
  rw [hf.ofText] at hpublic hautofill ⊢
  refine Prod.ext ?_ rfl
  -- Only two fields need the lemmas on the first empty value, the others are told by `build`.
  calc build t (some (KeyPair.generate r).1)
    _ = ⟨(scanLines t).flatMap annotate, some (KeyPair.generate r).1.secret.encode,
        (build t (some (KeyPair.generate r).1)).derivedPublic,
        (build t (some (KeyPair.generate r).1)).autofill⟩ := rfl
    _ = withDrawn t _ _ _ (KeyPair.generate r).1 := by rw [hpublic, hautofill]; rfl

section WithDrawn

variable (front : List Text) (start : Nat) (gap : Text) (drawn : KeyPair)

@[simp] theorem annotations_withDrawn :
    (withDrawn t front start gap drawn).annotations = (scanLines t).flatMap annotate := rfl

/-- All keys have the same length. -/
@[simp] theorem place_withDrawn :
    (withDrawn t front start gap drawn).autofill.map Splice.place = some (start, 0, start + (size gap + 44)) := by
  simp [withDrawn, Splice.place, Splice.insert, Splice.replace, drawn.secret.size_encode]

theorem derivedPublic_withDrawn {pair : KeyPair} (h : firstKey? front = some pair) :
    (withDrawn t front start gap drawn).derivedPublic = some pair.publicKey.encode := by
  rw [withDrawn, h]
  rfl

end WithDrawn

/-! ### Main statement -/

/-- Two scans of a text differ in the pair that is drawn, if any, and where it is told: the private key, the splice
that writes it, and the public key if no private key stands in front of the first empty value. -/
theorem scans_differ_in_pair (t : Text) (r r' : RandomStream) :
    let s := (ofText t r).1
    let s' := (ofText t r').1
    s.annotations = s'.annotations ∧ s.hasErrors = s'.hasErrors ∧
    s.autofill.map Splice.place = s'.autofill.map Splice.place ∧
    ([] ∉ privateValues t → (ofText t r).2 = r ∧ s = s') ∧
    ([] ∈ privateValues t → (ofText t r).2 = r.advance 32 ∧ (r.next 32 = r'.next 32 → s = s') ∧
      ∃ front back start gap, privateValues t = front ++ [] :: back ∧ [] ∉ front ∧
        s = withDrawn t front start gap (KeyPair.generate r).1 ∧
        s' = withDrawn t front start gap (KeyPair.generate r').1 ∧
        (firstKey? front ≠ none → s.derivedPublic = s'.derivedPublic)) := by
  by_cases h : [] ∈ privateValues t
  · obtain ⟨front, back, start, gap, hsplit, hfront, hdrawn⟩ := ofText_of_mem h
    simp only [hdrawn, hasErrors, annotations_withDrawn, place_withDrawn, true_and]
    refine ⟨fun hno => absurd h hno, fun _ => ⟨fun hnext => ?_, front, back, start, gap, hsplit, hfront, rfl, rfl, ?_⟩⟩
    · simp only [KeyPair.generate, hnext]
    · intro hfirst
      obtain ⟨pair, hpair⟩ := Option.ne_none_iff_exists'.1 hfirst
      rw [derivedPublic_withDrawn _ _ _ _ hpair, derivedPublic_withDrawn _ _ _ _ hpair]
  · simp only [ofText_of_not_mem h, h, not_false_eq_true, forall_const, false_implies, and_self]

end Scan

end TunnelConf
