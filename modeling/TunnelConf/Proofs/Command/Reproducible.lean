import TunnelConf.Proofs.Command.Check
import TunnelConf.Proofs.Scan.DerivedKey

/-!
# What a check has from random bytes

All that a check takes from random bytes are keys for texts that await one, and it tells them in JSON reports
only (`Command.keys_eq`). So two checks print the same if no file awaits a key, and there are streams with which
they do not if one does (`check_reproducible_iff`).
-/

namespace TunnelConf

open Text

/-- A constant stream is the same all along. -/
theorem KeyPair.generate_cycle_advance (b : UInt8) (n : Nat) :
    (generate ((RandomStream.cycle [b]).advance n)).1 = (generate (.cycle [b])).1 := by
  have hnext : ((RandomStream.cycle [b]).advance n).next 32 = (RandomStream.cycle [b]).next 32 := by
    simp [RandomStream.next, RandomStream.cycle, RandomStream.advance, Nat.mod_one]
  simp only [generate, hnext]

namespace Command

variable {grade : Finding → Option Severity} {r r' : RandomStream} {sources : List (Text × Text)}
  {keys keys' : List (Option Text)}

/-- The public key of the first private key of a text. -/
def standingKey? (t : Text) : Option Text := (firstKey? (privateValues t)).map fun pair => pair.publicKey.encode

theorem exists_of_standingKey? {t k : Text} (h : standingKey? t = some k) :
    ∃ v ∈ privateValues t, ∃ pair, KeyPair.decode v = .ok pair ∧ k = pair.publicKey.encode := by
  obtain ⟨pair, hpair, rfl⟩ := Option.map_eq_some_iff.1 h
  obtain ⟨v, hv, hd⟩ := mem_of_firstKey? hpair
  exact ⟨v, hv, pair, hd, rfl⟩

theorem keys_eq (h : Told r sources keys) (hno : ∀ source ∈ sources, ¬ AwaitsKey source.2) :
    keys = sources.map fun source => standingKey? source.2 := by
  induction h with
  | nil => rfl
  | @cons source key sources keys hkey _ ih =>
    obtain ⟨n, rfl⟩ := hkey
    obtain ⟨hsource, hrest⟩ := List.forall_mem_cons.1 hno
    rw [Scan.derivedPublic_of_not_awaitsKey hsource, ih hrest]
    rfl

theorem entryOf_inj {source : Text × Text} {key key' : Option Text}
    (h : entryOf grade source key = entryOf grade source key') : key = key' := by
  have hkey : JsonTree.ofOption .text key = JsonTree.ofOption .text key' :=
    Option.some.inj (congrArg (JsonTree.member? "derived_public_key") h)
  cases key with
  | none =>
    cases key' with
    | none => rfl
    | some k' => cases hkey
  | some k =>
    cases key' with
    | none => cases hkey
    | some k' => exact congrArg some (JsonTree.text.inj hkey)

/-- Equal reports tell equal keys of a file. -/
theorem exists_key_of_zipWith_eq (h : Told r sources keys) (h' : Told r' sources keys')
    (heq : List.zipWith (entryOf grade) sources keys = List.zipWith (entryOf grade) sources keys') :
    ∀ source ∈ sources, ∃ n n', (Scan.ofText source.2 (r.advance n)).1.derivedPublic =
      (Scan.ofText source.2 (r'.advance n')).1.derivedPublic := by
  induction h generalizing keys' with
  | nil => simp
  | @cons source key sources keys hkey _ ih =>
    obtain ⟨n, rfl⟩ := hkey
    cases h' with
    | cons hkey' hrest' =>
      obtain ⟨n', rfl⟩ := hkey'
      rw [List.zipWith_cons_cons, List.zipWith_cons_cons] at heq
      obtain ⟨hentry, hentries⟩ := List.cons.inj heq
      exact List.forall_mem_cons.2 ⟨⟨n, n', entryOf_inj hentry⟩, ih hrest' hentries⟩

variable {tree : FileTree} {files : List Text} {source : Text × Text}

/-- The streams of one byte each show where a key is drawn. -/
theorem output_ne_of_awaitsKey (s : Settings) (hreads : tree.Reads files sources) (hsource : source ∈ sources)
    (hawaits : AwaitsKey source.2) :
    (runCheck s files .json ⟨tree, .cycle [7]⟩).output ≠ (runCheck s files .json ⟨tree, .cycle [0]⟩).output := by
  have hread := FileTree.readAll_eq_ok_iff.2 hreads
  obtain ⟨keys, hkeys, -, -, hjson⟩ := runCheck_of_ok (w := ⟨tree, .cycle [7]⟩) hread s
  obtain ⟨keys', hkeys', -, -, hjson'⟩ := runCheck_of_ok (w := ⟨tree, .cycle [0]⟩) hread s
  rw [hjson, hjson', Ne, jsonOutput_inj]
  intro heq
  obtain ⟨n, n', hkey⟩ := exists_key_of_zipWith_eq hkeys hkeys' heq source hsource
  rw [Scan.derivedPublic_of_awaitsKey hawaits, Scan.derivedPublic_of_awaitsKey hawaits,
    KeyPair.generate_cycle_advance, KeyPair.generate_cycle_advance] at hkey
  exact publicKey_cycle_ne (Option.some.inj hkey)

theorem code_eq (s : Settings) (tree : FileTree) (files : List Text) (format : Format) (r r' : RandomStream) :
    (runCheck s files format ⟨tree, r⟩).code = (runCheck s files format ⟨tree, r'⟩).code ∧
      (runCheck s files format ⟨tree, r⟩).errors = (runCheck s files format ⟨tree, r'⟩).errors := by
  cases hread : tree.readAll files with
  | error x =>
    obtain ⟨path, e⟩ := x
    obtain ⟨-, hcode, herrors⟩ := runCheck_of_error (s := s) (w := ⟨tree, r⟩) hread format
    obtain ⟨-, hcode', herrors'⟩ := runCheck_of_error (s := s) (w := ⟨tree, r'⟩) hread format
    exact ⟨hcode.trans hcode'.symm, herrors.trans herrors'.symm⟩
  | ok sources =>
    obtain ⟨-, -, hcode, -⟩ := runCheck_of_ok (w := ⟨tree, r⟩) hread s
    obtain ⟨-, -, hcode', -⟩ := runCheck_of_ok (w := ⟨tree, r'⟩) hread s
    rw [(hcode format).1, (hcode format).2, (hcode' format).1, (hcode' format).2]
    exact ⟨rfl, rfl⟩

theorem output_eq (s : Settings) {format : Format}
    (h : format = .json → ∀ sources, tree.Reads files sources → ∀ source ∈ sources, ¬ AwaitsKey source.2)
    (r r' : RandomStream) :
    (runCheck s files format ⟨tree, r⟩).output = (runCheck s files format ⟨tree, r'⟩).output := by
  cases hread : tree.readAll files with
  | error x =>
    obtain ⟨path, e⟩ := x
    obtain ⟨houtput, -⟩ := runCheck_of_error (s := s) (w := ⟨tree, r⟩) hread format
    obtain ⟨houtput', -⟩ := runCheck_of_error (s := s) (w := ⟨tree, r'⟩) hread format
    rw [houtput, houtput']
  | ok sources =>
    obtain ⟨keys, hkeys, -, hplain, hjson⟩ := runCheck_of_ok (w := ⟨tree, r⟩) hread s
    obtain ⟨keys', hkeys', -, hplain', hjson'⟩ := runCheck_of_ok (w := ⟨tree, r'⟩) hread s
    cases format with
    | plain => rw [hplain, hplain']
    | json =>
      have hno := h rfl sources (FileTree.readAll_eq_ok_iff.1 hread)
      rw [hjson, hjson', keys_eq hkeys hno, keys_eq hkeys' hno]

/-- The public key that a check tells of a text: of a key that it has drawn if the text awaits one, and otherwise
of the first private key that stands there. -/
structure Origin (r : RandomStream) (t : Text) (key : Option Text) : Prop where
  drawn : AwaitsKey t → ∃ n, key = some (KeyPair.generate (r.advance n)).1.publicKey.encode
  first : ¬ AwaitsKey t → key = standingKey? t
  stands : ¬ AwaitsKey t → ∀ k, key = some k →
    ∃ v ∈ privateValues t, ∃ pair, KeyPair.decode v = .ok pair ∧ k = pair.publicKey.encode

theorem Told.origin (h : Told r sources keys) :
    List.Forall₂ (fun source key => Origin r source.2 key) sources keys := by
  refine h.imp fun source key hkey => ?_
  obtain ⟨n, rfl⟩ := hkey
  have hfirst := fun hno => Scan.derivedPublic_of_not_awaitsKey (t := source.2) hno (r.advance n)
  exact ⟨fun hawaits => ⟨n, Scan.derivedPublic_of_awaitsKey hawaits _⟩, hfirst, fun hno k hk =>
    exists_of_standingKey? ((hfirst hno).symm.trans hk)⟩

end Command

/-! ### Main statement -/

/-- Two checks of the same files end alike and print the same, but for the keys in JSON reports of files that
await one; and if there is such a file, some two checks print different reports. -/
theorem check_reproducible_iff (s : Settings) (tree : FileTree) (files : List Text) (format : Format) :
    let run := fun (input : List UInt8) (r : RandomStream) => Command.run s input ⟨tree, r⟩ (.check files format)
    (∀ input input' r r', (run input r).code = (run input' r').code ∧
      (run input r).errors = (run input' r').errors) ∧
    ((∀ input input' r r', (run input r).output = (run input' r').output) ↔
      (format = .json → ∀ sources, tree.Reads files sources → ∀ source ∈ sources, ¬ AwaitsKey source.2)) ∧
    (format = .json → ∀ sources, tree.Reads files sources → ∀ input r, ∃ keys,
      (run input r).output = Command.jsonOutput (List.zipWith (Command.entryOf s.grade) sources keys) ∧
      List.Forall₂ (fun source key => Command.Origin r source.2 key) sources keys) := by
  refine ⟨fun _ _ r r' => Command.code_eq s tree files format r r', ⟨fun hsame => ?_, fun hno _ _ r r' =>
    Command.output_eq s hno r r'⟩, ?_⟩
  · rintro rfl sources hreads source hsource hawaits
    exact Command.output_ne_of_awaitsKey s hreads hsource hawaits (hsame [] [] (.cycle [7]) (.cycle [0]))
  · rintro rfl sources hreads input r
    obtain ⟨keys, hkeys, -, -, hjson⟩ :=
      Command.runCheck_of_ok (w := ⟨tree, r⟩) (FileTree.readAll_eq_ok_iff.2 hreads) s
    exact ⟨keys, hjson, hkeys.origin⟩

/-- The only private key of the file is empty. -/
theorem check_not_reproducible :
    let content := "PrivateKey =\n".toList
    let tree : FileTree := ⟨[(["f".toList], .file ⟨utf8 content, 0o600⟩)], []⟩
    let check := Command.check ["f".toList] .json
    (Command.run ⟨true, .warn, []⟩ [] ⟨tree, .cycle [7]⟩ check).output ≠
      (Command.run ⟨true, .warn, []⟩ [] ⟨tree, .cycle [0]⟩ check).output := by
  intro content tree check
  have hreads : tree.Reads ["f".toList] [("f".toList, content)] := ⟨rfl, by decide +kernel⟩
  have hvalues : privateValues content = [[]] := by decide +kernel
  have hawaits : AwaitsKey content := ⟨[], [], hvalues, rfl⟩
  clear_value tree
  exact Command.output_ne_of_awaitsKey ⟨true, .warn, []⟩ hreads (List.mem_singleton_self _) hawaits

end TunnelConf
