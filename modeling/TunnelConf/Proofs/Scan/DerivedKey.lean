import TunnelConf.Proofs.Scan.Autofill

/-!
# The public key of a scan

A scan tells the public key of the first value that is a private key or is empty. Up to the first empty value
the text decides (`firstKey?`); for an empty one it is the key drawn for the scan (`derivedPublic_of_split`),
and so that of other bytes in another scan (`publicKey_cycle_ne`). Main statements: the key is drawn just where
the text awaits one (`derivedPublic_of_awaitsKey`, `derivedPublic_of_not_awaitsKey`).
-/

namespace TunnelConf

open Text Line

/-- The first of some values that is a private key. -/
def firstKey? (values : List Text) : Option KeyPair := values.findSome? fun v => (KeyPair.decode v).toOption

theorem mem_of_firstKey? {values : List Text} {pair : KeyPair} (h : firstKey? values = some pair) :
    ∃ v ∈ values, KeyPair.decode v = .ok pair := by
  obtain ⟨v, hv, hpair⟩ := List.exists_of_findSome?_eq_some h
  refine ⟨v, hv, ?_⟩
  cases hd : KeyPair.decode v with
  | error e => rw [hd] at hpair; cases hpair
  | ok p => rw [hd] at hpair; exact congrArg _ (Option.some.inj hpair)

theorem firstKey?_append (values values' : List Text) :
    firstKey? (values ++ values') = (firstKey? values).or (firstKey? values') := List.findSome?_append

namespace Scan

theorem findSome?_publicOf_eq {values : List Text} (h : [] ∉ values) (generated : Option KeyPair) :
    values.findSome? (publicOf generated) = (firstKey? values).map fun pair => pair.publicKey.encode := by
  induction values with
  | nil => rfl
  | cons v vs ih =>
    rw [List.mem_cons, not_or] at h
    have hv : publicOf generated v = (KeyPair.decode v).toOption.map fun pair => pair.publicKey.encode := by
      rw [publicOf, if_neg (by simpa using Ne.symm h.1)]
    rw [firstKey?, List.findSome?_cons, List.findSome?_cons, hv, ih h.2, firstKey?]
    cases (KeyPair.decode v).toOption <;> rfl

variable {t : Text} {before after : List Text}

/-- In front of the first empty value stands a private key, or the drawn one is the first. -/
theorem derivedPublic_of_split (h : privateValues t = before ++ [] :: after) (hb : [] ∉ before)
    (r : RandomStream) : (ofText t r).1.derivedPublic =
      some ((firstKey? before).getD (KeyPair.generate r).1).publicKey.encode := by
  obtain ⟨_, _, _, _, _, hf⟩ := exists_firstVacant (t := t) (by simp [h])
  rw [hf.ofText, derivedPublic_build, h, List.findSome?_append, findSome?_publicOf_eq hb, List.findSome?_cons]
  cases firstKey? before <;> rfl

theorem derivedPublic_of_not_mem (h : [] ∉ privateValues t) (r : RandomStream) :
    (ofText t r).1.derivedPublic = (firstKey? (privateValues t)).map fun pair => pair.publicKey.encode := by
  rw [ofText_of_not_mem h, derivedPublic_build, findSome?_publicOf_eq h]

end Scan

/-! ### Texts that await a key -/

/-- A private key of the text is empty, and no valid one stands in front of it. -/
def AwaitsKey (t : Text) : Prop := ∃ before after, privateValues t = before ++ [] :: after ∧ firstKey? before = none

namespace Scan

theorem derivedPublic_of_awaitsKey {t : Text} (h : AwaitsKey t) (r : RandomStream) :
    (ofText t r).1.derivedPublic = some (KeyPair.generate r).1.publicKey.encode := by
  obtain ⟨before, after, hsplit, hnone⟩ := h
  obtain ⟨first, rest, hfirst, hb⟩ := List.eq_append_cons_of_mem (show [] ∈ privateValues t by simp [hsplit])
  -- no valid key stands in front of the first empty value either
  have hnone : firstKey? first = none := by
    rcases List.append_eq_append_iff.1 (hsplit.symm.trans hfirst) with ⟨x, rfl, hx⟩ | ⟨x, rfl, -⟩
    · cases x with
      | nil => rwa [List.append_nil]
      | cons v x => exact absurd (by simp [(List.cons.inj hx).1]) hb
    · rw [firstKey?_append, Option.or_eq_none_iff] at hnone
      exact hnone.1
  rw [derivedPublic_of_split hfirst hb, hnone]
  rfl

/-- Otherwise it is that of the first private key of the text, whatever the random bytes are. -/
theorem derivedPublic_of_not_awaitsKey {t : Text} (h : ¬ AwaitsKey t) (r : RandomStream) :
    (ofText t r).1.derivedPublic = (firstKey? (privateValues t)).map fun pair => pair.publicKey.encode := by
  by_cases hmem : [] ∈ privateValues t
  · obtain ⟨before, after, hsplit, hb⟩ := List.eq_append_cons_of_mem hmem
    obtain ⟨pair, hpair⟩ := Option.ne_none_iff_exists'.1 fun hnone => h ⟨before, after, hsplit, hnone⟩
    rw [derivedPublic_of_split hsplit hb, hsplit, firstKey?_append, hpair]
    rfl
  · exact derivedPublic_of_not_mem hmem r

end Scan

set_option maxRecDepth 100000 in
/-- Two streams from which keys with different public keys are drawn. -/
theorem publicKey_cycle_ne : (KeyPair.generate (.cycle [7])).1.publicKey.encode ≠
    (KeyPair.generate (.cycle [0])).1.publicKey.encode := by
  decide +kernel

end TunnelConf
