import TunnelConf.Command.Run
import TunnelConf.Proofs.Edit.Files
import TunnelConf.Proofs.Scan.DerivedKey

/-!
# The key that is shown

To fill a private key in is to write a drawn key into the first empty value (`Draft.ofFill_of_firstVacant`).
The public key that is shown then is the one of the scan of the result: that of the first private key in it,
which need not be the one that was written (`fillKeys_shows_first_key`).
-/

namespace TunnelConf

open Text Line

theorem Key.encode_inj {k k' : Key} : k.encode = k'.encode ↔ k = k' := by
  constructor
  · intro h
    have hd := k.decode_encode
    rw [h, k'.decode_encode] at hd
    exact (Except.ok.inj hd).symm
  · rintro rfl
    rfl

namespace Draft

variable {t : Text} {before after : List Line} {p : Pair} {a : Assignment} {e : Ending}

theorem ofFill_of_firstVacant (h : FirstVacant t before p a e after) (r : RandomStream) :
    let result := FirstVacant.filled before p a e after (KeyPair.generate r).1.secret
    ∃ d, ofFill t r = .ok d ∧ d.result = result ∧ d.scan = (Scan.ofText result (r.advance 32)).1 := by
  obtain ⟨events, hrefresh⟩ := Session.refresh_of_firstVacant h r
  rw [ofFill, Session.start, hrefresh]
  exact ⟨_, rfl, rfl, rfl⟩

theorem not_changed_of_ofFill {d : Draft} {r : RandomStream} (h : [] ∉ privateValues t) (hd : ofFill t r = .ok d) :
    d.changed = false := by
  rw [ofFill, Session.start, Session.refresh_of_not_mem h] at hd
  rw [← Except.ok.inj hd]
  simp [changed]

end Draft

/-- A key in the first empty value leaves the public key of the scan that drew it. -/
theorem FirstVacant.derivedPublic_ofText_filled {t : Text} {before after : List Line} {p : Pair} {a : Assignment}
    {e : Ending} (h : FirstVacant t before p a e after) (r r' : RandomStream) :
    (Scan.ofText (filled before p a e after (KeyPair.generate r).1.secret) r').1.derivedPublic =
      (Scan.ofText t r).1.derivedPublic := by
  obtain ⟨generated, hsecond⟩ :=
    Scan.exists_ofText (filled before p a e after (KeyPair.generate r).1.secret) r'
  rw [hsecond, h.derivedPublic_filled, h.ofText]

namespace Workspace

variable {w : Workspace} {path : Text} {options : EditOptions} {o : Outcome}

theorem exists_draft_of_edit {draft : Except EditError Draft} (h : (w.edit path options draft).result = .ok o) :
    ∃ d, draft = .ok d ∧ o = d.outcome path := by
  cases draft with
  | error e => cases h
  | ok d => exact ⟨d, rfl, eq_outcome_of_finish h⟩

/-- What a file says behind an edit that changes it. -/
theorem readText_edit {draft : Except EditError Draft} {t : Text} (ho : (w.edit path options draft).result = .ok o)
    (hc : o.changed = true) (ht : w.readText path = .ok t) :
    (w.edit path options draft).workspace.readText path = .ok (if options.dryRun then t else o.result) := by
  rcases edit_tree w path options draft with ⟨o', ho', -, hdry, hnew⟩ | ⟨htree, hidle⟩
  · obtain rfl := Except.ok.inj (ho.symm.trans ho')
    rw [if_neg (by simp [hdry])]
    exact readText_eq_ok_iff.2 (hnew.readText (readText_eq_ok_iff.1 ht))
  · have hdry : options.dryRun = true := (hidle o ho).resolve_left (by simp [hc])
    rw [if_pos hdry, readText, htree]
    exact ht

/-- A call that reports a change has written a key into the first empty value. -/
theorem exists_filled_of_changed (ho : (w.fillKeys path options).result = .ok o) (hc : o.changed = true) :
    ∃ t before p a e after, w.readText path = .ok t ∧ FirstVacant t before p a e after ∧
      o.result = FirstVacant.filled before p a e after (KeyPair.generate w.random).1.secret ∧
      o.scan.derivedPublic = (Scan.ofText t w.random).1.derivedPublic := by
  obtain ⟨d, hd, rfl⟩ := exists_draft_of_edit (fillKeys_eq w path options ▸ ho)
  obtain ⟨t, ht, hd⟩ := bind_eq_ok_iff.1 hd
  have hmem : [] ∈ privateValues t := by
    by_contra hn
    have hno := Draft.not_changed_of_ofFill hn hd
    cases hno.symm.trans hc
  obtain ⟨before, p, a, e, after, hf⟩ := exists_firstVacant hmem
  obtain ⟨d', hd', hresult, hscan⟩ := Draft.ofFill_of_firstVacant hf w.random
  obtain rfl := Except.ok.inj (hd.symm.trans hd')
  refine ⟨t, before, p, a, e, after, ht, hf, hresult, ?_⟩
  show d.scan.derivedPublic = _
  rw [hscan, hf.derivedPublic_ofText_filled]

end Workspace

theorem Command.output_runFill {s : Settings} {w : Workspace} {path : Text} {flags : EditFlags} {o : Outcome}
    {key : Text} (ho : (w.fillKeys path (editOptions s flags)).result = .ok o)
    (hkey : o.scan.derivedPublic = some key) :
    (runFill s path flags w).output =
      renderOutcome path flags false o ++ line ("PublicKey = ".toList ++ key) := by
  rw [runFill, completeEdit, ho]
  show _ ++ o.scan.derivedPublic.elim [] _ = _
  rw [hkey]
  rfl

/-! ### Main statement -/

/-- A call that changes a file shows the public key of the first private key in the result, and that is the
one it has written unless a private key with another public key stands in front. -/
theorem fillKeys_shows_first_key {w : Workspace} {path : Text} {options : EditOptions} {o : Outcome}
    (ho : (w.fillKeys path options).result = .ok o) (hc : o.changed = true) :
    let written := (KeyPair.generate w.random).1
    ∃ t before after, w.readText path = .ok t ∧ privateValues t = before ++ [] :: after ∧ [] ∉ before ∧
      privateValues o.result = before ++ written.secret.encode :: after ∧
      (w.fillKeys path options).workspace.readText path = .ok (if options.dryRun then t else o.result) ∧
      o.scan.derivedPublic = some ((firstKey? before).getD written).publicKey.encode ∧
      (o.scan.derivedPublic = some written.publicKey.encode ↔
        ∀ pair, firstKey? before = some pair → pair.publicKey = written.publicKey) ∧
      ∀ s flags input, Command.editOptions s flags = options → ∃ front,
        (Command.run s input w (.fillKeys path flags)).output = front ++
          Command.line ("PublicKey = ".toList ++ ((firstKey? before).getD written).publicKey.encode) := by
  intro written
  obtain ⟨t, before, p, a, e, after, ht, hf, hresult, hderived⟩ := Workspace.exists_filled_of_changed ho hc
  have hb : [] ∉ before.filterMap fun l => privateValue? l.body := fun hmem => by
    obtain ⟨l, hl, hv⟩ := List.mem_filterMap.1 hmem
    exact hf.none_before l hl hv
  have hshown := hderived.trans (Scan.derivedPublic_of_split hf.privateValues_eq hb w.random)
  refine ⟨t, _, _, ht, hf.privateValues_eq, hb, ?_, ?_, hshown, ?_, ?_⟩
  · rw [hresult, hf.privateValues_filled]
  · exact Workspace.readText_edit ho hc ht
  · rw [hshown, Option.some_inj, Key.encode_inj]
    cases firstKey? (before.filterMap fun l => privateValue? l.body) with
    | none => simp [written]
    | some pair => simp [written]
  · rintro s flags input rfl
    exact ⟨_, Command.output_runFill ho hshown⟩

/-- A value in front that is no key does not count. -/
theorem fillKeys_shows_written_key :
    let content := "PrivateKey = x\nPrivateKey =\n".toList
    let w : Workspace := ⟨⟨[(["f".toList], .file ⟨utf8 content, 0o600⟩)], []⟩, .cycle [7]⟩
    ∃ o, (w.fillKeys "f".toList {}).result = .ok o ∧ o.changed = true ∧
      o.scan.derivedPublic = some (KeyPair.generate (.cycle [7])).1.publicKey.encode := by
  intro content w
  have hread : w.readText "f".toList = .ok content := by decide +kernel
  have hvalues : ∀ v ∈ privateValues content, (KeyPair.decode v).isOk = false := by decide +kernel
  have hchanged : (w.fillKeys "f".toList {}).result.toOption.map Outcome.changed = some true := by decide +kernel
  cases ho : (w.fillKeys "f".toList {}).result with
  | error e => rw [ho] at hchanged; cases hchanged
  | ok o =>
    rw [ho] at hchanged
    have hc : o.changed = true := Option.some.inj hchanged
    obtain ⟨t, before, after, ht, hsplit, -, -, -, -, hown, -⟩ := fillKeys_shows_first_key ho hc
    obtain rfl := Except.ok.inj (hread.symm.trans ht)
    refine ⟨o, rfl, hc, hown.2 fun pair hpair => ?_⟩
    obtain ⟨v, hv, hd⟩ := mem_of_firstKey? hpair
    have hno := hvalues v (by rw [hsplit]; exact List.mem_append_left _ hv)
    rw [hd] at hno
    cases hno

/-- A private key in front of the one that is written. -/
theorem fillKeys_shows_other_key :
    let content := "PrivateKey = AAAAAAAAAAAAAAAAAAAAAAAAAAAAAAAAAAAAAAAAAEA=\nPrivateKey =\n".toList
    let w : Workspace := ⟨⟨[(["f".toList], .file ⟨utf8 content, 0o600⟩)], []⟩, .cycle [7]⟩
    let written := (KeyPair.generate w.random).1
    ∃ o, (w.fillKeys "f".toList {}).result = .ok o ∧ o.changed = true ∧
      written.secret.encode ∉ privateValues content ∧ written.secret.encode ∈ privateValues o.result ∧
      o.scan.derivedPublic ≠ some written.publicKey.encode := by
  intro content w written
  have hread : w.readText "f".toList = .ok content := by decide +kernel
  have hnew : written.secret.encode ∉ privateValues content := by decide +kernel
  have hfirst : (Scan.ofText content w.random).1.derivedPublic =
      some (KeyPair.generate (.cycle [0])).1.publicKey.encode := by decide +kernel
  have hchanged : (w.fillKeys "f".toList {}).result.toOption.map Outcome.changed = some true := by decide +kernel
  cases ho : (w.fillKeys "f".toList {}).result with
  | error e => rw [ho] at hchanged; cases hchanged
  | ok o =>
    rw [ho] at hchanged
    have hc : o.changed = true := Option.some.inj hchanged
    obtain ⟨t, before, p, a, e, after, ht, hf, hresult, hderived⟩ := Workspace.exists_filled_of_changed ho hc
    obtain rfl := Except.ok.inj (hread.symm.trans ht)
    refine ⟨o, rfl, hc, hnew, ?_, fun hshown => ?_⟩
    · rw [hresult, hf.privateValues_filled]
      simp [written]
    · exact publicKey_cycle_ne (Option.some.inj ((hshown.symm.trans hderived).trans hfirst))

end TunnelConf
