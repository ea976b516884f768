import TunnelConf.Proofs.Command.Reproducible
import TunnelConf.Proofs.Edit.FilledKeys

/-!
# What filling a key in tells

The outcome of filling a private key in holds that key in its diff, its splice and its text. A text that a key was
filled into awaits none any more (`FirstVacant.not_awaitsKey_filled`), so the public key of its scan is that of the
first private key that stands in it, and what is printed is a function of that key and of whether the text has
changed (`Command.fillReport`). Main statement: runs that agree on these two print the same
(`fillKeys_tells_publicKey_only`).
-/

namespace TunnelConf

open Text Line

variable {t : Text}

/-- The key that was filled in stands in front of every value that is still empty. -/
theorem FirstVacant.not_awaitsKey_filled {before after : List Line} {p : Pair} {a : Assignment} {e : Ending} {k : Key}
    (h : FirstVacant t before p a e after) : ¬ AwaitsKey (filled before p a e after k) := by
  rintro ⟨first, rest, hsplit, hnone⟩
  rw [h.privateValues_filled] at hsplit
  have hbefore : [] ∉ before.filterMap fun l => privateValue? l.body := by
    intro hmem
    obtain ⟨l, hl, hv⟩ := List.mem_filterMap.1 hmem
    exact h.none_before l hl hv
  rcases List.append_eq_append_iff.1 hsplit with ⟨x, rfl, hx⟩ | ⟨x, hx, hrest⟩
  · cases x with
    | nil => exact k.encode_ne_nil (List.cons.inj hx).1
    | cons v x =>
      -- the key itself stands in front
      obtain ⟨rfl, -⟩ := List.cons.inj hx
      have hkey : firstKey? (k.encode :: x) = some ⟨k⟩ := by
        rw [firstKey?, List.findSome?_cons, KeyPair.decode_encode ⟨k⟩]
        rfl
      rw [firstKey?_append, Option.or_eq_none_iff, hkey] at hnone
      cases hnone.2
  · cases x with
    | nil => exact k.encode_ne_nil (List.cons.inj hrest).1.symm
    | cons v x =>
      obtain ⟨rfl, -⟩ := List.cons.inj hrest
      exact hbefore (hx ▸ List.mem_append_right _ List.mem_cons_self)

namespace Draft

/-- The public key of the scan is the one of the first private key in the result, in which no key is awaited. -/
theorem derivedPublic_of_ofFill {d : Draft} {r : RandomStream} (hd : ofFill t r = .ok d) :
    ¬ AwaitsKey d.result ∧ d.scan.derivedPublic = Command.standingKey? d.result := by
  by_cases hmem : [] ∈ privateValues t
  · obtain ⟨before, p, a, e, after, h⟩ := exists_firstVacant hmem
    obtain ⟨d', hd', hresult, hscan⟩ := ofFill_of_firstVacant h r
    obtain rfl := Except.ok.inj (hd.symm.trans hd')
    have hno : ¬ AwaitsKey d.result := hresult ▸ h.not_awaitsKey_filled
    rw [hscan, ← hresult]
    exact ⟨hno, Scan.derivedPublic_of_not_awaitsKey hno _⟩
  · have hno : ¬ AwaitsKey t := by
      rintro ⟨before, after, hsplit, -⟩
      exact hmem (by simp [hsplit])
    have hderived := Scan.derivedPublic_of_not_mem hmem r
    rw [Scan.ofText_of_not_mem hmem] at hderived
    rw [ofFill, Session.start, Session.refresh_of_not_mem hmem] at hd
    obtain rfl := Except.ok.inj hd
    exact ⟨hno, hderived⟩

end Draft

namespace Command

/-- What a run that fills keys of a file in prints, given whether the text has changed and the public key of the
text that comes of it. -/
def fillReport (file : Text) (flags : EditFlags) (changed : Bool) (key : Option Text) : Text :=
  (if flags.quiet then []
    else if !changed then line ("No changes for ".toList ++ file)
    else if flags.dryRun then line ("Would update ".toList ++ file ++ " (dry run)".toList)
    else line ("Updated ".toList ++ file)) ++
  key.elim [] fun key => line ("PublicKey = ".toList ++ key)

theorem output_runFill_eq {s : Settings} {w : Workspace} {file : Text} {flags : EditFlags} {o : Outcome}
    (ho : (w.fillKeys file (editOptions s flags)).result = .ok o) :
    (runFill s file flags w).output = fillReport file flags o.changed o.scan.derivedPublic := by
  rw [runFill, completeEdit, ho]
  rfl

end Command

namespace Workspace

variable {w : Workspace} {path : Text} {options : EditOptions} {o : Outcome}

/-- What the outcome says of the text that was read and of the file behind the call. -/
theorem spec_fillKeys (ho : (w.fillKeys path options).result = .ok o) :
    ∃ t, w.readText path = .ok t ∧ (o.changed = true ↔ o.result ≠ t) ∧
      (w.fillKeys path options).workspace.readText path = .ok (if options.dryRun then t else o.result) ∧
      ¬ AwaitsKey o.result ∧ o.scan.derivedPublic = Command.standingKey? o.result := by
  have hedit : (w.edit path options (w.fillDraft path)).result = .ok o := fillKeys_eq w path options ▸ ho
  obtain ⟨d, hdraft, rfl⟩ := exists_draft_of_edit hedit
  obtain ⟨t, ht, hd⟩ := bind_eq_ok_iff.1 hdraft
  have hchanged : (d.outcome path).changed = true ↔ d.result ≠ t := by
    show (d.original != d.result) = true ↔ _
    rw [Draft.original_ofFill hd, bne_iff_ne, ne_comm]
  refine ⟨t, ht, hchanged, ?_, Draft.derivedPublic_of_ofFill hd⟩
  rw [fillKeys_eq]
  cases hc : (d.outcome path).changed with
  | true => exact readText_edit hedit hc ht
  | false =>
    have hsame : d.result = t := by
      by_contra hne
      rw [hchanged.2 hne] at hc
      cases hc
    rcases edit_tree w path options (w.fillDraft path) with ⟨o, ho', hc', -⟩ | ⟨htree, -⟩
    · obtain rfl := Except.ok.inj (hedit.symm.trans ho')
      rw [hc'] at hc
      cases hc
    · show _ = Except.ok (if options.dryRun then t else d.result)
      rw [hsame, ite_self, readText, htree]
      exact ht

/-- A private key in front of the one that is written is the one that counts. -/
theorem standingKey?_of_front {t : Text} {before after : List Text} {pair : KeyPair}
    (ho : (w.fillKeys path options).result = .ok o) (hc : o.changed = true) (ht : w.readText path = .ok t)
    (hsplit : privateValues t = before ++ [] :: after) (hb : [] ∉ before) (hpair : firstKey? before = some pair) :
    Command.standingKey? o.result = some pair.publicKey.encode := by
  obtain ⟨-, -, -, -, -, hkey⟩ := spec_fillKeys ho
  obtain ⟨t', _, _, _, _, _, ht', -, -, hderived⟩ := exists_filled_of_changed ho hc
  obtain rfl := Except.ok.inj (ht.symm.trans ht')
  rw [← hkey, hderived, Scan.derivedPublic_of_split hsplit hb, hpair]
  rfl

end Workspace

theorem EditError.exitCode_ne_zero (e : EditError) : e.exitCode.number ≠ 0 := by
  unfold exitCode
  cases e.kind <;> decide

/-- The run has filled keys of a file with the text `t` in, with the outcome `o`: the file says the result unless
the run is dry, no key is awaited in the result, and the report is of its public key. -/
structure Surroundings.Fills (s : Surroundings) (w : Workspace) (v : Invocation) (file : Text) (flags : EditFlags)
    (t : Text) (o : Outcome) : Prop where
  read : w.readText file = .ok t
  outcome : ∃ settings, Settings.load w.tree ⟨v.config, none⟩ = .ok settings ∧
    (w.fillKeys file (Command.editOptions settings flags)).result = .ok o
  changed : o.changed = true ↔ o.result ≠ t
  stands : (s.run w).workspace.readText file = .ok (if flags.dryRun then t else o.result)
  publicKey : ∀ r, (Scan.ofText o.result r).1.derivedPublic = Command.standingKey? o.result
  output : (s.run w).output = Command.fillReport file flags o.changed (Command.standingKey? o.result)
  errors : (s.run w).errors = []

namespace Surroundings

variable {s : Surroundings} {w : Workspace} {v : Invocation} {file : Text} {flags : EditFlags}

theorem exists_fills (hv : Arguments.parse s.arguments = .ok v) (hc : v.command = .fillKeys file flags)
    (hcode : (s.run w).code = 0) : ∃ t o, s.Fills w v file flags t o := by
  cases hs : Settings.load w.tree ⟨v.config, none⟩ with
  | error e =>
    rw [run, hv] at hcode
    simp only [hs] at hcode
    cases hcode
  | ok settings =>
    have hrun : (s.run w).code = (Command.runFill settings file flags w).code ∧
        (s.run w).output = (Command.runFill settings file flags w).output ∧
        (s.run w).errors = (Command.runFill settings file flags w).errors ∧
        (s.run w).workspace = (Command.runFill settings file flags w).workspace := by
      rw [run, hv]
      simp only [hs, hc]
      exact ⟨rfl, rfl, rfl, rfl⟩
    obtain ⟨hcode', houtput, herrors, hworkspace⟩ := hrun
    rw [hcode'] at hcode
    cases ho : (w.fillKeys file (Command.editOptions settings flags)).result with
    | error e =>
      rw [Command.runFill, Command.completeEdit, ho] at hcode
      exact absurd hcode e.exitCode_ne_zero
    | ok o =>
      obtain ⟨t, hread, hchanged, hstands, hno, hkey⟩ := Workspace.spec_fillKeys ho
      have hpublic := Scan.derivedPublic_of_not_awaitsKey hno
      refine ⟨t, o, hread, ⟨settings, hs, ho⟩, hchanged, ?_, hpublic, ?_, ?_⟩
      · rw [hworkspace, Command.runFill, Command.completeEdit, ho]
        exact hstands
      · rw [houtput, Command.output_runFill_eq ho, hkey]
      · rw [herrors, Command.runFill, Command.completeEdit, ho]

end Surroundings

/-! ### Main statement -/

/-- Two successful runs on the same command line print the same and end alike, whatever the files say and the random
bytes are, if they agree on whether the text has changed and on the public key of the text that comes of it. -/
theorem fillKeys_tells_publicKey_only {arguments : List Text} {v : Invocation} {file : Text} {flags : EditFlags}
    (hv : Arguments.parse arguments = .ok v) (hc : v.command = .fillKeys file flags)
    {input input' : List UInt8} {filter filter' : Option Text} {w w' : Workspace}
    (hcode : ((⟨arguments, input, filter⟩ : Surroundings).run w).code = 0)
    (hcode' : ((⟨arguments, input', filter'⟩ : Surroundings).run w').code = 0) :
    let s : Surroundings := ⟨arguments, input, filter⟩
    let s' : Surroundings := ⟨arguments, input', filter'⟩
    ∃ t o t' o', s.Fills w v file flags t o ∧ s'.Fills w' v file flags t' o' ∧
      (o.changed = o'.changed → Command.standingKey? o.result = Command.standingKey? o'.result →
        (s.run w).output = (s'.run w').output ∧ (s.run w).errors = (s'.run w').errors ∧
          (s.run w).code = (s'.run w').code) := by
  intro s s'
  obtain ⟨t, o, h⟩ := Surroundings.exists_fills (s := s) hv hc hcode
  obtain ⟨t', o', h'⟩ := Surroundings.exists_fills (s := s') hv hc hcode'
  refine ⟨t, o, t', o', h, h', fun hchanged hkey => ⟨?_, ?_, hcode.trans hcode'.symm⟩⟩
  · rw [h.output, h'.output, hchanged, hkey]
  · rw [h.errors, h'.errors]

/-- Two files get different private keys behind the same first one. -/
theorem fillKeys_tells_publicKey_only_front :
    let pairs := "PrivateKey = AAAAAAAAAAAAAAAAAAAAAAAAAAAAAAAAAAAAAAAAAEA=\nPrivateKey =\n".toList
    let w : Workspace := ⟨⟨[(["f".toList], .file ⟨utf8 pairs, 0o600⟩)], []⟩, .cycle [7]⟩
    let w' : Workspace := ⟨⟨[(["f".toList], .file ⟨utf8 ("MTU = 2\n".toList ++ pairs), 0o600⟩)], []⟩, .cycle [9]⟩
    let s : Surroundings := ⟨["fill-keys".toList, "f".toList], [], none⟩
    (s.run w).code = 0 ∧ (s.run w').code = 0 ∧
      (s.run w).workspace.tree.files ≠ (s.run w').workspace.tree.files ∧
      (s.run w).output = (s.run w').output ∧ (s.run w).errors = (s.run w').errors := by
  intro pairs w w' s
  have hv : Arguments.parse s.arguments = .ok ⟨none, 0, .fillKeys "f".toList ⟨false, false, false, false⟩⟩ := by
    decide +kernel
  have hcode : (s.run w).code = 0 := by decide +kernel
  have hcode' : (s.run w').code = 0 := by decide +kernel
  have hfiles : (s.run w).workspace.tree.files ≠ (s.run w').workspace.tree.files := by decide +kernel
  obtain ⟨t, o, t', o', h, h', hsame⟩ := fillKeys_tells_publicKey_only hv rfl hcode hcode'
  -- what the file says behind the run shows that the text has changed
  have hchanged : ∀ {w : Workspace} {text : Text} {o : Outcome}, (s.run w).workspace.readText "f".toList ≠ .ok text →
      s.Fills w ⟨none, 0, .fillKeys "f".toList ⟨false, false, false, false⟩⟩ "f".toList
        ⟨false, false, false, false⟩ text o → o.changed = true := by
    intro w text o hne h
    refine h.changed.2 fun heq => hne ?_
    rw [h.stands, heq]
    rfl
  obtain ⟨pair, hpair⟩ : ∃ pair, firstKey? ["AAAAAAAAAAAAAAAAAAAAAAAAAAAAAAAAAAAAAAAAAEA=".toList] = some pair :=
    Option.isSome_iff_exists.1 (by decide +kernel)
  have hread : w.readText "f".toList = .ok pairs := by decide +kernel
  have hread' : w'.readText "f".toList = .ok ("MTU = 2\n".toList ++ pairs) := by decide +kernel
  obtain rfl := Except.ok.inj (hread.symm.trans h.read)
  obtain rfl := Except.ok.inj (hread'.symm.trans h'.read)
  have hc := hchanged (by decide +kernel) h
  have hc' := hchanged (by decide +kernel) h'
  obtain ⟨_, -, ho⟩ := h.outcome
  obtain ⟨_, -, ho'⟩ := h'.outcome
  have hvalues : privateValues pairs = ["AAAAAAAAAAAAAAAAAAAAAAAAAAAAAAAAAAAAAAAAAEA=".toList] ++ [] :: [] := by
    decide +kernel
  have hvalues' : privateValues ("MTU = 2\n".toList ++ pairs) = privateValues pairs := by decide +kernel
  have hkey := Workspace.standingKey?_of_front ho hc hread hvalues (by decide) hpair
  have hkey' := Workspace.standingKey?_of_front ho' hc' hread' (hvalues'.trans hvalues) (by decide) hpair
  obtain ⟨houtput, herrors, -⟩ := hsame (hc.trans hc'.symm) (hkey.trans hkey'.symm)
  exact ⟨hcode, hcode', hfiles, houtput, herrors⟩

end TunnelConf
