import TunnelConf.Proofs.Scan.Autofill

/-!
# Scanning two texts as one

Behind an LF a text is scanned as if it stood alone, so the scan of two texts with an LF between them is
made of their scans (`Scan.join`). A scan is the same function of its matches whether it generates a key or
not (`Scan.ofText_eq`): the pair that the next bytes give is there for every text, and a text without an
empty private key has no use for it. Main statement: `Scan.ofText_append_lf`.
-/

namespace TunnelConf

open Text Line
open Annotation (shift)

/-! ### Further on in a text -/

def Splice.shift (n : Nat) (s : Splice) : Splice := { s with start := n + s.start, cursor := n + s.cursor }

theorem Pair.valueSpan_add (p : Pair) (d n : Nat) : p.valueSpan (d + n) = (p.valueSpan n).shift d := by
  cases ha : p.assignment with
  | none => simp [Pair.valueSpan, Pair.valueSpan?, ha, Pair.keySpan, Span.stop, Span.shift, Nat.add_assoc]
  | some a => simp [Pair.valueSpan, Pair.valueSpan?, ha, Pair.keySpan, Span.stop, Span.shift, Nat.add_assoc]

namespace KeySite

def shift (n : Nat) (s : KeySite) : KeySite := { s with offset := n + s.offset }

theorem ofMatch?_shift (n : Nat) (m : LineMatch) : ofMatch? (m.shift n) = (ofMatch? m).map (shift n) := by
  obtain ⟨k, f⟩ := m
  cases f with
  | comment lead marker rest => rfl
  | header lead name trail => rfl
  | pair p =>
    simp only [ofMatch?, LineMatch.shift]
    split
    · rw [Option.map_map]; rfl
    · rfl

theorem fill_shift (n : Nat) (s : KeySite) (pair : KeyPair) :
    (s.shift n).fill pair = (s.fill pair).shift n := by
  simp only [fill, shift, Pair.valueSpan_add, Splice.replace, Splice.shift, Span.shift, Span.stop,
    Splice.mk.injEq, true_and]
  exact ⟨by omega, rfl, Nat.add_assoc ..⟩

end KeySite

namespace Scan

/-! ### The parts of a scan -/

/-- What is found in a text and, for an empty private key, the pair that the next random bytes give. -/
theorem ofText_eq (t : Text) (r : RandomStream) :
    (ofText t r).1 =
      { annotations := (scanLines t).flatMap annotate
        derivedPrivate := (emptySite? t).map fun _ => (KeyPair.generate r).1.secret.encode
        derivedPublic := (privateValues t).findSome? (publicOf (some (KeyPair.generate r).1))
        autofill := (emptySite? t).map fun s => s.fill (KeyPair.generate r).1 } := by
  cases h : emptySite? t with
  | some s =>
    have hbuild : (ofText t r).1 = build t (some (KeyPair.generate r).1) := by rw [ofText, h]; rfl
    rw [hbuild, ← derivedPublic_build]
    simp [build, h]
  | none =>
    have hmem : [] ∉ privateValues t := emptySite?_eq_none_iff.1 h
    have hne : ∀ v ∈ privateValues t, v ≠ [] := fun v hv hnil => hmem (hnil ▸ hv)
    rw [ofText_of_not_mem hmem, findSome?_publicOf hne (some _) none, ← derivedPublic_build]
    simp [build, h]

theorem random_ofText_eq (t : Text) (r : RandomStream) :
    (ofText t r).2 = if (ofText t r).1.autofill.isSome then r.advance 32 else r := by
  rw [ofText_eq, Option.isSome_map, ofText]
  split
  · rfl
  · rfl

theorem emptySite?_append_lf (a b : Text) : emptySite? (a ++ '\n' :: b) =
    (emptySite? a).or ((emptySite? b).map (KeySite.shift (size a + 1))) := by
  have hsites : keySites (a ++ '\n' :: b) = keySites a ++ (keySites b).map (KeySite.shift (size a + 1)) := by
    rw [keySites, LineMatch.scanLines_append_lf, List.filterMap_append, List.filterMap_map, keySites, keySites,
      List.map_filterMap]
    refine congrArg _ (List.filterMap_congr fun m _ => ?_)
    exact KeySite.ofMatch?_shift _ m
  rw [emptySite?, hsites, List.find?_append, List.find?_map]
  rfl

theorem privateValues_append_lf (a b : Text) :
    privateValues (a ++ '\n' :: b) = privateValues a ++ privateValues b := by
  rw [privateValues, LineMatch.scanLines_append_lf, List.filterMap_append, List.filterMap_map]
  rfl

theorem flatMap_annotate_append_lf (a b : Text) : (scanLines (a ++ '\n' :: b)).flatMap annotate =
    (scanLines a).flatMap annotate ++ ((scanLines b).flatMap annotate).map (shift (size a + 1)) := by
  rw [LineMatch.scanLines_append_lf, List.flatMap_append, flatMap_annotate_shift]

/-! ### Two texts -/

/-- Two scans as one, the second one of a text that stands `d` bytes further on. The key to write comes from
the first scan that has one, with its splice, and the public key from the first one that has one. -/
def join (d : Nat) (s u : Scan) : Scan where
  annotations := s.annotations ++ u.annotations.map (shift d)
  derivedPrivate := if s.autofill.isSome then s.derivedPrivate else u.derivedPrivate
  derivedPublic := s.derivedPublic.or u.derivedPublic
  autofill := s.autofill.or (u.autofill.map (Splice.shift d))

theorem hasErrors_join (d : Nat) (s u : Scan) : (join d s u).hasErrors = (s.hasErrors || u.hasErrors) := by
  have h : Annotation.isError ∘ shift d = Annotation.isError := rfl
  rw [hasErrors, join, List.any_append, List.any_map, h]
  rfl

/-- The scan of two texts with an LF between them is that of the one and that of the other, each made with
the same random bytes, and draws what the scan with the splice draws. -/
theorem ofText_append_lf (a b : Text) (r : RandomStream) :
    (ofText (a ++ '\n' :: b) r).1 = join (size a + 1) (ofText a r).1 (ofText b r).1 ∧
      (ofText (a ++ '\n' :: b) r).1.hasErrors = ((ofText a r).1.hasErrors || (ofText b r).1.hasErrors) ∧
      (ofText (a ++ '\n' :: b) r).2 =
        if (ofText a r).1.autofill.isSome then (ofText a r).2 else (ofText b r).2 := by
  have hjoin : (ofText (a ++ '\n' :: b) r).1 = join (size a + 1) (ofText a r).1 (ofText b r).1 := by
    rw [ofText_eq, ofText_eq a, ofText_eq b, join, emptySite?_append_lf, privateValues_append_lf,
      flatMap_annotate_append_lf, List.findSome?_append]
    cases emptySite? a with
    | some s => rfl
    | none =>
      cases emptySite? b with
      | none => rfl
      | some s => simp [KeySite.fill_shift]
  refine ⟨hjoin, ?_, ?_⟩
  · rw [hjoin, hasErrors_join]
  · rw [random_ofText_eq, hjoin, random_ofText_eq a, random_ofText_eq b, join]
    cases (ofText a r).1.autofill with
    | some s => rfl
    | none => simp

end Scan

end TunnelConf
