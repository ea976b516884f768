import TunnelConf.Proofs.Merge.Target
import TunnelConf.Proofs.Scan.Join
import TunnelConf.Proofs.Session.Refresh
import TunnelConf.Proofs.Splice

/-!
# Edits that commute

No line is one of two keys (`KeyLine.ofBody?_eq_none_of_ne`), and a line of a key stays one when a value
is added. So edits of different keys are edits for lines of different kinds, and filling in a private key
is one more of these (`apart_adding`, `apart_filling`). A line that is appended stands behind all lines
that an edit looks for. Main statement: `edits_commute`.
-/

namespace TunnelConf

open Text Line

namespace KeyLine

variable {key other : KeyName} {t value : Text} {k j : KeyLine} {body : Text}

/-! ### Lines of two keys -/

/-- The name goes up to the first blank or equals sign behind it. -/
theorem Fits.takeWhile_eq_name (h : k.Fits key.text) :
    (k.render.dropWhile isBlank).takeWhile (fun c => !(isBlank c || c == '=')) = k.name := by
  have hname : ∀ c ∈ k.name, (!(isBlank c || c == '=')) = true := by
    intro c hc
    rcases h.spells.isAlphanumeric_or hc with ha | rfl | rfl
    · have he : c ≠ '=' := by rintro rfl; exact absurd ha (by decide)
      simp [isBlank_of_isAlphanumeric ha, he]
    · decide
    · decide
  have hrest : Stops (fun c => !(isBlank c || c == '=')) (k.gap ++ k.rest) := by
    intro c hc
    rcases h.endsName c hc with hb | rfl
    · simp [hb]
    · decide
  rw [render, dropWhile_append_of_stops h.lead (stops_name h.spells), takeWhile_append_of_stops hname hrest]

theorem ofBody?_eq_none_of_ne (hne : lower key.text ≠ lower other.text) (h : ofBody? key.text body = some k) :
    ofBody? other.text body = none := by
  rw [Option.eq_none_iff_forall_ne_some]
  intro j hj
  obtain ⟨hk, hkf⟩ := ofBody?_eq_some_iff.1 h
  obtain ⟨hj, hjf⟩ := ofBody?_eq_some_iff.1 hj
  have hname : k.name = j.name := by rw [← hkf.takeWhile_eq_name, hk, ← hj, hjf.takeWhile_eq_name]
  have hfold : key.text.map KeyName.fold = other.text.map KeyName.fold :=
    hkf.spells.symm.trans (hname ▸ hjf.spells)
  rw [KeyName.map_fold_of_ascii (KeyName.ascii_of_isAlphanumeric key.isAlphanumeric_of_mem),
    KeyName.map_fold_of_ascii (KeyName.ascii_of_isAlphanumeric other.isAlphanumeric_of_mem)] at hfold
  exact hne hfold

/-- Behind an edit the line is one of the key again. -/
theorem adding_eq_none_of_ne (hne : lower key.text ≠ lower other.text) {b b' : Text} (v w : Text)
    (h : adding key v b = some b') : adding other w b = none ∧ adding other w b' = none := by
  obtain ⟨k, hk, rfl⟩ := Option.map_eq_some_iff.1 h
  have hf := (ofBody?_eq_some_iff.1 hk).2
  exact ⟨adding_eq_none_iff.2 (ofBody?_eq_none_of_ne hne hk),
    adding_eq_none_iff.2 (ofBody?_eq_none_of_ne hne (ofBody?_of_fits (hf.added v)))⟩

theorem apart_adding (hne : lower key.text ≠ lower other.text) (v w : Text) :
    Apart (adding key v) (adding other w) :=
  ⟨fun _ _ => adding_eq_none_of_ne hne v w, fun _ _ => adding_eq_none_of_ne hne.symm w v⟩

end KeyLine

/-! ### Lines with an empty private key -/

namespace KeyName

def privateKey : KeyName := ⟨"PrivateKey".toList, by decide, by decide⟩

theorem lower_privateKey : lower privateKey.text = "privatekey".toList := by decide

/-- Whatever is assigned to a private key stands on a line of that key. -/
theorem exists_of_privateValue? {body v : Text} (h : privateValue? body = some v) :
    ∃ k, KeyLine.ofBody? privateKey.text body = some k := by
  obtain ⟨f, hf, hv⟩ := Option.bind_eq_some_iff.1 h
  obtain ⟨p, a, rfl, hp, -⟩ := LineForm.privateValue?_eq_some_iff.1 hv
  exact KeyLine.exists_ofBody?_of_pair hf (hp.trans lower_privateKey.symm)

end KeyName

/-- What a line with an empty private key becomes when a key is filled in. -/
def filling (k : Key) (body : Text) : Option Text :=
  if privateValue? body = some [] then some (Line.withKey k ⟨body, .none⟩).body else none

theorem filling_eq_some_iff {k : Key} {b b' : Text} : filling k b = some b' ↔
    ∃ p a, p.render = b ∧ Pair.Vacant p a ∧ (p.withKey a k.encode).render = b' := by
  rw [filling]
  constructor
  · intro h
    split at h
    · next hb =>
      obtain ⟨p, a, rfl, hp⟩ := privateValue?_eq_some_nil_iff.1 hb
      rw [withKey_eq hp] at h
      exact ⟨p, a, rfl, hp, Option.some.inj h⟩
    · cases h
  · rintro ⟨p, a, rfl, hp, rfl⟩
    rw [if_pos hp.privateValue?_render, withKey_eq hp]

theorem rewrites_filling (k : Key) : Rewrites (filling k) := by
  constructor
  · intro b b' hb h
    obtain ⟨p, a, rfl, hp, rfl⟩ := filling_eq_some_iff.1 h
    rw [hp.render_withKey, isBody_append, Assignment.written]
    refine ⟨hb, ?_⟩
    split
    · exact isBody_cons.2 ⟨by decide, k.isBody_encode⟩
    · exact k.isBody_encode
  · intro b b' h
    obtain ⟨p, a, rfl, hp, rfl⟩ := filling_eq_some_iff.1 h
    have hne : p.render ≠ [] := by simp [Pair.render, hp.fits.name_ne]
    rw [hp.render_withKey]
    exact List.append_ne_nil_of_left_ne_nil hne _

theorem apart_filling {key : KeyName} (hne : lower key.text ≠ "privatekey".toList) (v : Text) (k : Key) :
    Apart (KeyLine.adding key v) (filling k) := by
  have hne : lower key.text ≠ lower KeyName.privateKey.text := by rwa [KeyName.lower_privateKey]
  have hkey : ∀ b u, privateValue? b = some u → KeyLine.adding key v b = none := by
    intro b u h
    obtain ⟨j, hj⟩ := KeyName.exists_of_privateValue? h
    exact KeyLine.adding_eq_none_iff.2 (KeyLine.ofBody?_eq_none_of_ne hne.symm hj)
  have hnone : ∀ b, KeyLine.adding key v b = none ∨ filling k b = none := by
    intro b
    rw [filling]
    split
    · next hb => exact .inl (hkey b [] hb)
    · exact .inr rfl
  constructor
  · intro b b' h
    obtain ⟨j, hj, rfl⟩ := Option.map_eq_some_iff.1 h
    have hb : KeyLine.adding key v (j.added v).render ≠ none := by
      rw [ne_eq, KeyLine.adding_eq_none_iff, KeyLine.ofBody?_of_fits ((KeyLine.ofBody?_eq_some_iff.1 hj).2.added v)]
      exact Option.some_ne_none _
    exact ⟨(hnone b).resolve_left (by simp [h]), (hnone _).resolve_left hb⟩
  · intro b b' h
    obtain ⟨p, a, rfl, hp, rfl⟩ := filling_eq_some_iff.1 h
    exact ⟨hkey _ _ hp.privateValue?_render, hkey _ _ (hp.privateValue?_withKey k)⟩

/-! ### Edits of texts -/

/-- Merging a value into a key makes `u` of `t`. -/
def Merges (t : Text) (key : KeyName) (value u : Text) : Prop := (mergeInsert t key value).apply t = .ok u

/-- The autofill of a scan makes `u` of `t`. -/
def Autofills (t : Text) (r : RandomStream) (u : Text) : Prop :=
  ∃ s, (Scan.ofText t r).1.autofill = some s ∧ s.apply t = .ok u

theorem Splice.apply_append {s : Splice} {t u : Text} (h : s.apply t = .ok u) (b : Text) :
    s.apply (t ++ b) = .ok (u ++ b) := by
  obtain ⟨x, o, y, ⟨rfl, hstart, hlen⟩, rfl⟩ := apply_eq_ok_iff.1 h
  exact apply_eq_ok_iff.2 ⟨x, o, y ++ b, ⟨List.append_assoc _ _ _, hstart, hlen⟩, List.append_assoc _ _ _⟩

section Merges
variable {t value u : Text} {key other : KeyName}

theorem merges_edited (h : KeyLine.find? key.text t ≠ none) (value : Text) :
    Merges t key value (edited (KeyLine.adding key value) t) :=
  KeyLine.apply_of_find?_ne_none h value

theorem merges_appended (h : KeyLine.find? key.text t = none) (value : Text) :
    Merges t key value (t ++ '\n' :: (KeyLine.fresh key value).render) :=
  KeyLine.apply_of_find?_eq_none h value

/-- An edit for other lines does not change whether the key has a line. -/
theorem KeyLine.find?_edited_eq_none_iff {f : Text → Option Text} (hf : Rewrites f) (v : Text)
    (h : Apart f (adding key v)) : find? key.text (edited f t) = none ↔ find? key.text t = none := by
  have hiff := h.forall_editFirst_iff (ofVisual t)
  simp only [adding_eq_none_iff] at hiff
  rw [find?_eq_none_iff, find?_eq_none_iff, ofVisual_edited hf, hiff]

/-- A line behind the others is not the first one of a key. -/
theorem Merges.append_lf (hm : Merges t key value u) (h : KeyLine.find? key.text t ≠ none) (b : Text) :
    Merges (t ++ '\n' :: b) key value (u ++ '\n' :: b) := by
  obtain ⟨q, hq⟩ := Option.ne_none_iff_exists'.1 h
  have hfind : KeyLine.find? key.text (t ++ '\n' :: b) = some q := by
    rw [KeyLine.find?_eq_head?_pick] at hq ⊢
    rw [pick_append_lf _ (KeyLine.ofBody?_nil key), List.head?_append, hq]
    rfl
  have hsplice : mergeInsert (t ++ '\n' :: b) key value = mergeInsert t key value := by
    rw [mergeInsert, mergeInsert, hfind, hq]
  rw [Merges, hsplice]
  exact Splice.apply_append hm _

/-- The second key may be one without a line. -/
theorem exists_merges (hne : lower key.text ≠ lower other.text) (h : KeyLine.find? key.text t ≠ none)
    {v w : Text} (hv : IsBody v) (hw : IsBody w) :
    ∃ a b u, Merges t key v a ∧ Merges a other w u ∧ Merges t other w b ∧ Merges b key v u := by
  have hf := KeyLine.rewrites_adding key hv
  have hg := KeyLine.rewrites_adding other hw
  have hapart := KeyLine.apart_adding hne v w
  have hother := KeyLine.find?_edited_eq_none_iff (t := t) hf w hapart
  cases ho : KeyLine.find? other.text t with
  | none =>
    have hkey := merges_edited h v
    exact ⟨_, _, _, hkey, merges_appended (hother.2 ho) w, merges_appended ho w, hkey.append_lf h _⟩
  | some q =>
    have hlive : KeyLine.find? other.text t ≠ none := by simp [ho]
    have hkey := KeyLine.find?_edited_eq_none_iff (t := t) hg v hapart.symm
    refine ⟨_, _, _, merges_edited h v, merges_edited (mt hother.1 hlive) w, merges_edited hlive w, ?_⟩
    rw [← edited_comm hf hg hapart]
    exact merges_edited (mt hkey.1 h) v

end Merges

section Autofills
variable {t u : Text} {r : RandomStream}

theorem mem_privateValues_iff (k : Key) : [] ∈ privateValues t ↔ ¬ ∀ l ∈ ofVisual t, filling k l.body = none := by
  rw [privateValues_eq, List.mem_filterMap]
  simp [filling]

theorem autofills_edited (h : [] ∈ privateValues t) (r : RandomStream) :
    Autofills t r (edited (filling (KeyPair.generate r).1.secret) t) := by
  obtain ⟨before, p, a, e, after, hf⟩ := exists_firstVacant h
  refine ⟨_, hf.autofill_ofText r, ?_⟩
  have hb : ∀ l ∈ before, filling (KeyPair.generate r).1.secret l.body = none :=
    fun l hl => if_neg (hf.none_before l hl)
  have hp : filling (KeyPair.generate r).1.secret (Line.body ⟨p.render, e⟩) =
      some (p.withKey a (KeyPair.generate r).1.secret.encode).render :=
    filling_eq_some_iff.2 ⟨p, a, rfl, hf.vacant, rfl⟩
  rw [hf.apply, edited, hf.lines, editFirst_of_first hb hp]
  rfl

/-- A line behind the others is not the first one with an empty private key. -/
theorem Autofills.append_lf (h : Autofills t r u) (b : Text) : Autofills (t ++ '\n' :: b) r (u ++ '\n' :: b) := by
  obtain ⟨s, hs, happly⟩ := h
  refine ⟨s, ?_, Splice.apply_append happly _⟩
  rw [Scan.ofText_eq] at hs ⊢
  obtain ⟨site, hsite, rfl⟩ := Option.map_eq_some_iff.1 hs
  rw [Scan.emptySite?_append_lf, hsite]
  rfl

end Autofills

/-- Edits of different keys can be made in either order, unless both append a line: two merges of which one
finds a line of its key, and a merge and the autofill of a scan that has drawn the same random bytes. -/
theorem edits_commute (t : Text) :
    (∀ key other : KeyName, lower key.text ≠ lower other.text →
      (KeyLine.find? key.text t ≠ none ∨ KeyLine.find? other.text t ≠ none) →
      ∀ v w, IsBody v → IsBody w →
        ∃ a b u, Merges t key v a ∧ Merges a other w u ∧ Merges t other w b ∧ Merges b key v u) ∧
    (∀ key : KeyName, lower key.text ≠ "privatekey".toList → [] ∈ privateValues t →
      ∀ v r, IsBody v →
        ∃ a b u, Merges t key v a ∧ Autofills a r u ∧ Autofills t r b ∧ Merges b key v u) := by
  constructor
  · intro key other hne hlive v w hv hw
    rcases hlive with h | h
    · exact exists_merges hne h hv hw
    · obtain ⟨b, a, u, hb, hbu, ha, hau⟩ := exists_merges hne.symm h hw hv
      exact ⟨a, b, u, ha, hau, hb, hbu⟩
  · intro key hne hvacant v r hv
    have hf := KeyLine.rewrites_adding key hv
    have hg := rewrites_filling (KeyPair.generate r).1.secret
    have hapart := apart_filling hne v (KeyPair.generate r).1.secret
    have hkey := KeyLine.find?_edited_eq_none_iff (t := t) hg v hapart.symm
    have hfill := autofills_edited hvacant r
    cases h : KeyLine.find? key.text t with
    | none => exact ⟨_, _, _, merges_appended h v, hfill.append_lf _, hfill, merges_appended (hkey.2 h) v⟩
    | some q =>
      have hlive : KeyLine.find? key.text t ≠ none := by simp [h]
      have hmerged : [] ∈ privateValues (edited (KeyLine.adding key v) t) := by
        rw [mem_privateValues_iff (KeyPair.generate r).1.secret] at hvacant ⊢
        rwa [ofVisual_edited hf, hapart.forall_editFirst_iff]
      refine ⟨_, _, _, merges_edited hlive v, autofills_edited hmerged r, hfill, ?_⟩
      rw [← edited_comm hf hg hapart]
      exact merges_edited (mt hkey.1 hlive) v

/-- A key that has a line without an equals sign and one that has none, in a text that ends with a lone CR. -/
theorem edits_commute_final_cr :
    let t := "dns 9.9.9.9\rPrivateKey =\r".toList
    (∃ a b u, Merges t ⟨"DNS".toList, by decide, by decide⟩ "1.1.1.1".toList a ∧
      Merges a ⟨"MTU".toList, by decide, by decide⟩ "9".toList u ∧
      Merges t ⟨"MTU".toList, by decide, by decide⟩ "9".toList b ∧
      Merges b ⟨"DNS".toList, by decide, by decide⟩ "1.1.1.1".toList u) ∧
    ∃ a b u, Merges t ⟨"MTU".toList, by decide, by decide⟩ "9".toList a ∧ Autofills a (.cycle [7]) u ∧
      Autofills t (.cycle [7]) b ∧ Merges b ⟨"MTU".toList, by decide, by decide⟩ "9".toList u := by
  intro t
  have hlive : KeyLine.find? "DNS".toList t ≠ none := by decide
  have hvacant : [] ∈ privateValues t := by decide +kernel
  exact ⟨(edits_commute t).1 ⟨"DNS".toList, by decide, by decide⟩ ⟨"MTU".toList, by decide, by decide⟩
      (by decide) (.inl hlive) "1.1.1.1".toList "9".toList (by simp [IsBody]) (by simp [IsBody]),
    (edits_commute t).2 ⟨"MTU".toList, by decide, by decide⟩ (by decide) hvacant "9".toList (.cycle [7])
      (by simp [IsBody])⟩

end TunnelConf
