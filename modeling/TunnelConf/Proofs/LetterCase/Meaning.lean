import TunnelConf.Proofs.LetterCase.Lines
import TunnelConf.Proofs.Merge.Target
import TunnelConf.Proofs.Scan.Loop

/-!
# Letter case of names

What a scan finds out about a line it finds out about the line with its name in small letters
(`Scan.Progress.reached_lowered`), and merging takes a line for one of a key whatever the case of its name is
(`KeyLine.adds_recased`). Main statement: `recased_keeps_meaning`.
-/

namespace TunnelConf

open Text Line

variable {t u : Text}

/-! ### Scans -/

namespace Pair

theorem keySpan_lowered (p : Pair) (n : Nat) : p.lowered.keySpan n = p.keySpan n := by simp [keySpan, lowered]

theorem valueSpan?_lowered (p : Pair) (n : Nat) : p.lowered.valueSpan? n = p.valueSpan? n := by
  rw [valueSpan?, valueSpan?, keySpan_lowered]
  rfl

theorem valueSpan_lowered (p : Pair) (n : Nat) : p.lowered.valueSpan n = p.valueSpan n := by
  rw [valueSpan, valueSpan, keySpan_lowered, valueSpan?_lowered]

theorem ofKey?_lowered (p : Pair) : Rule.ofKey? p.lowered.name = Rule.ofKey? p.name := by
  rw [Rule.ofKey?, Rule.ofKey?, lowered, lower_lower]

end Pair

def LineMatch.lowered (m : LineMatch) : LineMatch := { m with form := m.form.lowered }

theorem LineMatch.map_lowered_scanLines (t : Text) : (scanLines t).map lowered =
    (pick (fun b => (LineForm.ofBody? b).map LineForm.lowered) 0 (ofVisual t)).map fun q => ⟨q.1, q.2⟩ := by
  rw [scanLines_eq_ofLines, ofLines, pick_map, List.map_map, List.map_map]
  rfl

namespace Scan

theorem annotate_lowered (m : LineMatch) : annotate m.lowered = annotate m := by
  obtain ⟨n, f⟩ := m
  cases f with
  | comment lead marker rest => rfl
  | header lead name trail =>
    simp [annotate, LineMatch.lowered, LineForm.lowered, LineMatch.span, Rule.isKnownSection, sameName]
  | pair p =>
    simp only [annotate, LineMatch.lowered, LineForm.lowered, annotatePair, p.keySpan_lowered, p.valueSpan?_lowered,
      p.ofKey?_lowered]
    rfl

end Scan

namespace KeySite

def lowered (s : KeySite) : KeySite := { s with pair := s.pair.lowered }

theorem ofMatch?_lowered (m : LineMatch) : ofMatch? m.lowered = (ofMatch? m).map lowered := by
  obtain ⟨n, f⟩ := m
  cases f with
  | comment lead marker rest => rfl
  | header lead name trail => rfl
  | pair p =>
    simp only [ofMatch?, LineMatch.lowered, LineForm.lowered, p.ofKey?_lowered]
    split
    · rw [Option.map_map]; rfl
    · rfl

theorem fill_lowered (s : KeySite) (pair : KeyPair) : s.lowered.fill pair = s.fill pair := by
  rw [fill, fill, ← s.pair.valueSpan_lowered]
  rfl

end KeySite

namespace Scan

theorem Progress.reached_lowered (r : RandomStream) (ms : List LineMatch) :
    reached r (ms.map LineMatch.lowered) = reached r ms := by
  have hannotations : (ms.map LineMatch.lowered).flatMap annotate = ms.flatMap annotate := by
    rw [List.flatMap_map]
    simp only [annotate_lowered]
  have hsites : (ms.map LineMatch.lowered).filterMap KeySite.ofMatch? =
      (ms.filterMap KeySite.ofMatch?).map KeySite.lowered := by
    rw [List.filterMap_map, List.map_filterMap]
    exact List.filterMap_congr fun m _ => KeySite.ofMatch?_lowered m
  have hempty : KeySite.isEmpty ∘ KeySite.lowered = KeySite.isEmpty := rfl
  have hpublic : ∀ generated, KeySite.publicKey? generated ∘ KeySite.lowered = KeySite.publicKey? generated :=
    fun _ => rfl
  rw [reached_eq_of_find? rfl, reached_eq_of_find? rfl, hannotations, hsites, List.find?_map, List.findSome?_map,
    hempty]
  cases (ms.filterMap KeySite.ofMatch?).find? KeySite.isEmpty with
  | none => simp [hpublic]
  | some site => simp [hpublic, KeySite.fill_lowered]

theorem ofText_recased (h : Recased t u) (r : RandomStream) : ofText u r = ofText t r := by
  have hlowered : (scanLines u).map LineMatch.lowered = (scanLines t).map LineMatch.lowered := by
    rw [LineMatch.map_lowered_scanLines, LineMatch.map_lowered_scanLines,
      h.pick_eq fun b b' hb => LineForm.ofBody?_recased hb]
  refine ofText_eq_of_run_eq ?_
  rw [run_eq_reached, run_eq_reached, ← Progress.reached_lowered, hlowered, Progress.reached_lowered]

end Scan

/-! ### Merges -/

namespace KeyLine

variable {key : KeyName} {k : KeyLine}

def withName (name : Text) : KeyLine → KeyLine
  | .bare lead _ gap => .bare lead name gap
  | .assigned lead _ gap value => .assigned lead name gap value
  | .loose lead _ gap value => .loose lead name gap value

theorem render_withName (name : Text) (k : KeyLine) :
    (k.withName name).render = k.lead ++ (name ++ (k.gap ++ k.rest)) := by
  cases k <;> rfl

theorem add_withName {name : Text} (h : size name = size k.name) (value : Text) (n : Nat) :
    (k.withName name).add value n = k.add value n := by
  cases k <;> simp only [withName, add, KeyLine.name] at h ⊢ <;> rw [h]

theorem Fits.withName {name : Text} (h : k.Fits key.text) (hname : KeyName.Spells key.text name) :
    (k.withName name).Fits key.text := by
  obtain ⟨hlead, -, hgap, hrest, hloose⟩ := h
  cases k with
  | bare lead _ gap => exact ⟨hlead, hname, hgap, hrest, fun _ _ _ _ h => by cases h⟩
  | assigned lead _ gap value => exact ⟨hlead, hname, hgap, hrest, fun _ _ _ _ h => by cases h⟩
  | loose lead _ gap value =>
    refine ⟨hlead, hname, hgap, hrest, fun _ _ _ _ h => ?_⟩
    cases h
    exact hloose _ _ _ _ rfl

/-- A line of a key is one in another case of its name too, and a value is added to it in the same place. -/
theorem exists_ofBody?_recased {f f' : LineForm} (hf : f.Fits) (h : f'.lowered = f.lowered)
    (hk : ofBody? key.text f.render = some k) :
    ∃ k', ofBody? key.text f'.render = some k' ∧ ∀ value n, k'.add value n = k.add value n := by
  obtain ⟨hrender, hfits⟩ := ofBody?_eq_some_iff.1 hk
  obtain ⟨p, rfl, hlead, hname⟩ := exists_pair_of_ofBody?_render hfits (hrender ▸ LineForm.ofBody?_of_fits hf)
  cases f' with
  | comment lead marker rest => cases h
  | header lead name trail => cases h
  | pair q =>
    have hparts : q.lead = p.lead ∧ lower q.name = lower p.name ∧ q.gap = p.gap ∧ q.assignment = p.assignment := by
      simpa [LineForm.lowered, Pair.lowered] using h
    obtain ⟨hqlead, hqname, hqgap, hqassignment⟩ := hparts
    have hascii : Ascii k.name := hname ▸ KeyName.ascii_of_isAlphanumeric hf.name
    have hlower : lower q.name = lower key.text := by
      rw [hqname, hname, KeyName.spells_and_ascii_iff.1 ⟨hfits.spells, hascii⟩]
    have hrest : k.gap ++ k.rest = p.gap ++ p.assignment.elim [] Assignment.render := by
      rw [render, LineForm.render, Pair.render, hlead, hname] at hrender
      simpa using hrender
    have hq : (k.withName q.name).render = (LineForm.pair q).render := by
      rw [render_withName, hrest, LineForm.render, Pair.render, hqlead, hqgap, hqassignment, hlead]
      simp
    have hspells : KeyName.Spells key.text q.name := (KeyName.spells_and_ascii_iff.2 hlower).1
    refine ⟨k.withName q.name, ofBody?_eq_some_iff.2 ⟨hq, hfits.withName hspells⟩, ?_⟩
    exact fun value n => add_withName (size_eq_of_lower_eq (by rw [hqname, hname])) value n

/-- What merging does with a line. -/
def adds (key : KeyName) (value body : Text) : Option (Nat → Splice) :=
  (ofBody? key.text body).map fun k n => k.add value n

theorem adds_recased (key : KeyName) (value : Text) {b b' : Text} (h : RecasedBody b b') :
    adds key value b' = adds key value b := by
  cases h with
  | same => rfl
  | @renamed f f' hf h =>
    have hf' : f'.Fits := LineForm.fits_lowered_iff.1 (h ▸ LineForm.fits_lowered_iff.2 hf)
    rw [adds, adds]
    cases hk : ofBody? key.text f.render with
    | some k =>
      obtain ⟨k', hk', hadd⟩ := exists_ofBody?_recased hf h hk
      rw [hk', Option.map_some, Option.map_some]
      exact congrArg some (funext fun n => hadd value n)
    | none =>
      cases hk' : ofBody? key.text f'.render with
      | none => rfl
      | some k' =>
        obtain ⟨k, hk₀, -⟩ := exists_ofBody?_recased hf' h.symm hk'
        rw [hk] at hk₀
        cases hk₀

/-- A splice depends on the first line of the key and on the size of the text. -/
theorem mergeInsert_eq (t : Text) (key : KeyName) (value : Text) : TunnelConf.mergeInsert t key value =
    (pick (adds key value) 0 (ofVisual t)).head?.elim (.insert (size t) ('\n' :: key.text ++ " = ".toList ++ value))
      fun q => q.2 q.1 := by
  have hpick : pick (adds key value) 0 (ofVisual t) = _ := pick_map (ofBody? key.text) (fun k n => k.add value n) 0 _
  rw [TunnelConf.mergeInsert, find?_eq_head?_pick, hpick, List.head?_map]
  cases (pick (ofBody? key.text) 0 (ofVisual t)).head? <;> rfl

end KeyLine

theorem mergeInsert_recased (h : Recased t u) (key : KeyName) (value : Text) :
    mergeInsert u key value = mergeInsert t key value := by
  rw [KeyLine.mergeInsert_eq, KeyLine.mergeInsert_eq, h.pick_eq fun _ _ hb => KeyLine.adds_recased key value hb,
    size_eq_of_lower_eq (RecasedAt.lower_eq h)]

/-! ### Keys -/

namespace KeyName

variable {key key' : KeyName}

theorem divide?_congr {k k' : Text} (h : k.map fold = k'.map fold) (t : Text) : divide? k t = divide? k' t := by
  induction k generalizing k' t with
  | nil =>
    obtain rfl := List.map_eq_nil_iff.1 h.symm
    rfl
  | cons c k ih =>
    obtain ⟨c', k', rfl, hc, hk⟩ := List.map_eq_cons_iff.1 h.symm
    cases t with
    | nil => rfl
    | cons d t => rw [divide?, divide?, hc, ih hk.symm]

theorem map_fold_eq (h : lower key.text = lower key'.text) : key.text.map fold = key'.text.map fold := by
  rw [map_fold_of_ascii (ascii_of_isAlphanumeric key.isAlphanumeric_of_mem),
    map_fold_of_ascii (ascii_of_isAlphanumeric key'.isAlphanumeric_of_mem), h]

theorem find?_eq (h : lower key.text = lower key'.text) (t : Text) :
    KeyLine.find? key.text t = KeyLine.find? key'.text t := by
  have hbody : KeyLine.ofBody? key.text = KeyLine.ofBody? key'.text := funext fun b => by
    rw [KeyLine.ofBody?, KeyLine.ofBody?, divide?_congr (map_fold_eq h)]
  rw [KeyLine.find?, KeyLine.find?, hbody]

end KeyName

/-! ### Main statement -/

/-- The case of letters in names means nothing: a text recased has the same scan, for the same random bytes, and a
value is merged into it by the same splice. Two spellings of a key have the same lines, and where they have none the
lines that are appended for them differ in these spellings only. -/
theorem recased_keeps_meaning (t : Text) :
    (∀ u, Recased t u → (∀ r, Scan.ofText u r = Scan.ofText t r) ∧
      ∀ key value, (KeyName.ofText? key).map (fun name => mergeInsert u name value) =
        (KeyName.ofText? key).map fun name => mergeInsert t name value) ∧
    ∀ (key key' : KeyName) (value : Text), lower key.text = lower key'.text →
      (KeyLine.find? key.text t ≠ none → mergeInsert t key value = mergeInsert t key' value) ∧
      (KeyLine.find? key.text t = none →
        mergeInsert t key value = .insert (size t) ('\n' :: key.text ++ " = ".toList ++ value) ∧
        mergeInsert t key' value = .insert (size t) ('\n' :: key'.text ++ " = ".toList ++ value) ∧
        (mergeInsert t key value).cursor = (mergeInsert t key' value).cursor) := by
  refine ⟨fun u h => ⟨Scan.ofText_recased h, fun key value => ?_⟩,
    fun key key' value h => ⟨fun hlive => ?_, fun hnone => ?_⟩⟩
  · simp only [mergeInsert_recased h]
  · obtain ⟨q, hq⟩ := Option.ne_none_iff_exists'.1 hlive
    rw [mergeInsert, mergeInsert, ← KeyName.find?_eq h, hq]
  · have hkey : mergeInsert t key value = .insert (size t) ('\n' :: key.text ++ " = ".toList ++ value) := by
      rw [mergeInsert, hnone]
    have hkey' : mergeInsert t key' value = .insert (size t) ('\n' :: key'.text ++ " = ".toList ++ value) := by
      rw [mergeInsert, ← KeyName.find?_eq h, hnone]
    refine ⟨hkey, hkey', ?_⟩
    rw [hkey, hkey']
    simp [Splice.insert, Splice.replace, size_eq_of_lower_eq h]

/-- A section and a key in another case, and two spellings of a key that has a line and of one that has none. -/
theorem recased_keeps_meaning_peer :
    let t := "[Peer]\nDNS =\nPrivateKey =".toList
    let u := "[peer]\ndNS =\nPrivateKey =".toList
    Recased t u ∧ Scan.ofText u (.cycle [7]) = Scan.ofText t (.cycle [7]) ∧
      (KeyName.ofText? "DNS".toList).map (fun name => mergeInsert u name "1.1.1.1".toList) =
        (KeyName.ofText? "DNS".toList).map (fun name => mergeInsert t name "1.1.1.1".toList) ∧
      mergeInsert t ⟨"dns".toList, by decide, by decide⟩ "1.1.1.1".toList =
        mergeInsert t ⟨"DNS".toList, by decide, by decide⟩ "1.1.1.1".toList ∧
      mergeInsert t ⟨"MTU".toList, by decide, by decide⟩ "9".toList = .insert 25 "\nMTU = 9".toList ∧
      mergeInsert t ⟨"mtu".toList, by decide, by decide⟩ "9".toList = .insert 25 "\nmtu = 9".toList := by
  intro t u
  have hpeer : LineMatch.InName (scanLines t) 1 :=
    ⟨⟨0, .header [] "Peer".toList []⟩, by decide +kernel, ⟨1, 4, .header⟩, by decide, by decide, by decide⟩
  have hdns : LineMatch.InName (scanLines t) 7 :=
    ⟨⟨7, .pair ⟨[], "DNS".toList, [' '], some ⟨[], [], []⟩⟩⟩, by decide +kernel, ⟨7, 3, .key⟩, by decide, by decide,
      by decide⟩
  have h : Recased t u :=
    .same <| .letter hpeer rfl <| .same <| .same <| .same <| .same <| .same <| .letter hdns rfl (.refl _ _)
  obtain ⟨htexts, hkeys⟩ := recased_keeps_meaning t
  obtain ⟨hscan, hmerge⟩ := htexts u h
  obtain ⟨hkey, hkey', -⟩ := (hkeys ⟨"MTU".toList, by decide, by decide⟩ ⟨"mtu".toList, by decide, by decide⟩
    "9".toList (by decide)).2 (by decide)
  exact ⟨h, hscan (.cycle [7]), hmerge "DNS".toList "1.1.1.1".toList,
    (hkeys ⟨"dns".toList, by decide, by decide⟩ ⟨"DNS".toList, by decide, by decide⟩ "1.1.1.1".toList
      (by decide)).1 (by decide), hkey, hkey'⟩

end TunnelConf
