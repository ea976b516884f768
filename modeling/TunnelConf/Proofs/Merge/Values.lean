import TunnelConf.Edit.Value
import TunnelConf.Proofs.Merge.Edit
import TunnelConf.Proofs.Scan.Matches
import TunnelConf.Rule.Token

/-!
# Values merged one after another

A merge leaves the line of the key in a written form, an equals sign, a space and the values
(`KeyLine.Written`), and what it adds to the values is the tokens of the new one
(`KeyLine.exists_merge`). By induction over any number of merges no token is lost, doubled, moved or
joined to its neighbour (`KeyLine.exists_mergeAll`), and the scanner reads them back in the first
pair of the key.
-/

namespace TunnelConf

open Text Line

/-! ### Tokens -/

namespace Token

/-- The tokens of a value without their places. -/
def texts (value : Text) : List Text := (ofValue value).map Token.text

theorem texts_eq (value : Text) :
    texts value = (splitWhere isDelimiter value).filter fun s => !s.isEmpty := by
  have h : ∀ (n : Nat) (ps : List Text), ((placed n ps).filter fun t => !t.text.isEmpty).map Token.text =
      ps.filter fun s => !s.isEmpty := by
    intro n ps
    induction ps generalizing n with
    | nil => rfl
    | cons s ss ih => cases s <;> simp [placed, ih]
  exact h 0 _

@[simp] theorem texts_nil : texts [] = [] := rfl

theorem texts_append_comma (a b : Text) : texts (a ++ ',' :: b) = texts a ++ texts b := by
  rw [texts_eq, texts_eq, texts_eq, splitWhere_append_cons (by decide), List.filter_append]

/-- The comma that joins two values, or the one that is there, keeps their tokens apart. -/
theorem texts_join (a b : Text) : texts (KeyLine.join a b) = texts a ++ texts b := by
  unfold KeyLine.join
  split
  · next h =>
    obtain ⟨a, rfl⟩ := List.getLast?_eq_some_iff.1 h
    rw [List.append_assoc, List.singleton_append, texts_append_comma, texts_append_comma]
    simp
  · exact texts_append_comma a b

end Token

/-! ### Values of one line -/

/-- A value as it is read from its source: one line that is not empty, without white space around
it. -/
structure ValueSource.OneLine (v : Text) : Prop where
  nonempty : v ≠ []
  trimmed : trim v = v
  body : Line.IsBody v

/-- These are the values that can be read. -/
theorem ValueSource.exists_singleLine_iff {v : Text} :
    (∃ raw, singleLine raw = .ok v) ↔ OneLine v := by
  have hend : ∀ u : Text, u.any isLineEnd = false ↔ Line.IsBody u := by
    intro u; simp [List.any_eq_false, isLineEnd, Line.IsBody]
  constructor
  · rintro ⟨raw, h⟩
    simp only [singleLine] at h
    split at h
    · cases h
    · next hne =>
      split at h
      · cases h
      · next hb =>
        cases h
        exact ⟨by simpa using hne, trim_eq_self_iff.2 (trimmed_trim _),
          (hend _).1 (Bool.eq_false_iff.2 hb)⟩
  · rintro ⟨hne, ht, hb⟩
    have hl : trimEndWhile isLineEnd v = v := by
      rw [trimEndWhile_eq_self_iff]
      intro c hc
      have := hb c (List.mem_of_getLast? hc)
      simp [isLineEnd, this]
    exact ⟨v, by simp [singleLine, hl, ht, hne, (hend v).2 hb]⟩

theorem ValueSource.oneLine_of_load {tree : FileTree} {input : List UInt8} {source : ValueSource} {v : Text}
    (h : source.load tree input = .ok v) : OneLine v := by
  rw [load] at h
  cases hr : source.read tree input with
  | error e => rw [hr] at h; cases h
  | ok raw => rw [hr] at h; exact exists_singleLine_iff.1 ⟨raw, h⟩

theorem ValueSource.OneLine.isTrimmed {v : Text} (h : OneLine v) : Trimmed v := trim_eq_self_iff.1 h.trimmed

/-! ### One merge -/

namespace KeyLine

/-- The values that stand on a line of a key. -/
def listed : KeyLine → Text
  | .bare .. => []
  | .assigned _ _ _ value => trim value
  | .loose _ _ _ value => trim value

/-- The values that a key has in a text. -/
def existing (key : KeyName) (t : Text) : Text := (find? key.text t).elim [] fun p => p.2.listed

/-- The name as the first line of a key spells it. -/
def spelling (key : KeyName) (t : Text) : Text := (find? key.text t).elim key.text fun p => p.2.name

/-- The line has an equals sign, a space and values. -/
structure Written (k : KeyLine) (values : Text) : Prop where
  eq : ∃ lead name gap, k = .assigned lead name gap (' ' :: values)
  nonempty : values ≠ []
  trimmed : Trimmed values

variable {key : KeyName} {t value : Text} {before after : List Line} {k : KeyLine} {e : Ending}

theorem Written.listed {values : Text} (h : k.Written values) : k.listed = values := by
  obtain ⟨lead, name, gap, rfl⟩ := h.eq
  show trim (' ' :: values) = values
  rw [trim_cons_of_isSpace (by decide), trim_eq_self_iff]
  exact h.trimmed

theorem join_ne_nil {old : Text} (hv : value ≠ []) : join old value ≠ [] := by
  unfold join; split <;> simp [hv]

theorem trimmed_join {old : Text} (ho : Trimmed old) (hv : Trimmed value) (hne : value ≠ []) :
    Trimmed (join old value) := by
  unfold join
  split
  · exact ho.append hv
  · exact ho.append ⟨stops_cons.2 (by decide), (endStops_cons hne).2 hv.last⟩

theorem texts_gather (k : KeyLine) (value : Text) :
    Token.texts (k.gather value) = Token.texts k.listed ++ Token.texts value := by
  cases k with
  | bare lead name gap => rfl
  | assigned lead name gap old =>
    simp only [gather, KeyLine.listed]
    split
    · next h => rw [List.isEmpty_iff.1 h]; rfl
    · exact Token.texts_join _ _
  | loose lead name gap old => exact Token.texts_join _ _

theorem written_added (k : KeyLine) (hv : ValueSource.OneLine value) :
    (k.added value).Written (k.gather value) := by
  obtain ⟨gap, ha, -⟩ := added_eq k value
  refine ⟨⟨_, _, _, ha⟩, ?_, ?_⟩
  · cases k with
    | bare lead name gap => exact hv.nonempty
    | assigned lead name gap old =>
      simp only [gather]; split
      · exact hv.nonempty
      · exact join_ne_nil hv.nonempty
    | loose lead name gap old => exact join_ne_nil hv.nonempty
  · cases k with
    | bare lead name gap => exact hv.isTrimmed
    | assigned lead name gap old =>
      simp only [gather]; split
      · exact hv.isTrimmed
      · exact trimmed_join (trimmed_trim _) hv.isTrimmed hv.nonempty
    | loose lead name gap old => exact trimmed_join (trimmed_trim _) hv.isTrimmed hv.nonempty

/-- A text in which the first line of a key is in the written form. -/
def Holds (key : KeyName) (t name values : Text) : Prop :=
  ∃ before k e after, FirstLine key t before k e after ∧ k.Written values ∧ k.name = name

theorem Holds.existing {name values : Text} (h : Holds key t name values) : existing key t = values := by
  obtain ⟨before, k, e, after, hf, hw, -⟩ := h
  simp only [KeyLine.existing, hf.find?]
  exact hw.listed

theorem Holds.spelling {name values : Text} (h : Holds key t name values) : spelling key t = name := by
  obtain ⟨before, k, e, after, hf, -, rfl⟩ := h
  simp only [KeyLine.spelling, hf.find?]
  rfl

/-- One merge puts the line into the written form and adds the tokens of the value. -/
theorem exists_merge (t : Text) (key : KeyName) (hv : ValueSource.OneLine value) :
    ∃ result values, (mergeInsert t key value).apply t = .ok result ∧
      Holds key result (spelling key t) values ∧
      Token.texts values = Token.texts (existing key t) ++ Token.texts value := by
  cases h : find? key.text t with
  | none =>
    refine ⟨_, value, apply_of_find?_eq_none h value,
      ⟨_, _, _, _, firstLine_appended h hv.body, ⟨⟨_, _, _, rfl⟩, hv.nonempty, hv.isTrimmed⟩, ?_⟩, ?_⟩
    · simp [fresh, name, spelling, h]
    · simp [existing, h]
  | some p =>
    obtain ⟨n, k⟩ := p
    obtain ⟨before, e, after, hf, rfl⟩ := exists_firstLine h
    refine ⟨_, _, hf.apply value, ⟨_, _, _, _, hf.edited hv.body, written_added k hv, ?_⟩, ?_⟩
    · simp [spelling, h]
    · simp [existing, h, texts_gather]

end KeyLine

/-! ### Any number of merges -/

/-- Merges values into a key one after another. -/
def mergeAll (key : KeyName) (t : Text) (values : List Text) : Except SpliceError Text :=
  values.foldlM (fun t value => (mergeInsert t key value).apply t) t

/-- The first pair of a key among the lines that the scanner recognises. -/
def Pair.first? (key t : Text) : Option Pair :=
  (scanLines t).findSome? fun m =>
    match m.form with
    | .pair p => if lower p.name = lower key then some p else none
    | _ => none

namespace KeyLine

variable {key : KeyName} {t : Text}

theorem exists_mergeAll {values : List Text} (hne : values ≠ [])
    (hv : ∀ v ∈ values, ValueSource.OneLine v) (t : Text) :
    ∃ result all, mergeAll key t values = .ok result ∧ Holds key result (spelling key t) all ∧
      Token.texts all = Token.texts (existing key t) ++ values.flatMap Token.texts := by
  induction values generalizing t with
  | nil => exact absurd rfl hne
  | cons v vs ih =>
    obtain ⟨t₁, all₁, h₁, hh₁, ht₁⟩ := exists_merge t key (hv v (List.mem_cons_self ..))
    cases vs with
    | nil => exact ⟨t₁, all₁, by simp [mergeAll, h₁], hh₁, by simpa using ht₁⟩
    | cons w ws =>
      obtain ⟨t₂, all₂, h₂, hh₂, ht₂⟩ :=
        ih (List.cons_ne_nil w ws) (fun u hu => hv u (List.mem_cons_of_mem _ hu)) t₁
      refine ⟨t₂, all₂, ?_, hh₁.spelling ▸ hh₂, ?_⟩
      · rw [mergeAll, List.foldlM_cons, h₁]; exact h₂
      · rw [ht₂, hh₁.existing, ht₁, List.append_assoc]; rfl

end KeyLine

/-! ### Reading the values back -/

theorem Pair.first?_eq_some_of_lines {key t : Text} {before after : List Line} {l : Line} {p : Pair}
    (hl : ofVisual t = before ++ l :: after) (hp : LineForm.ofBody? l.body = some (.pair p))
    (hname : lower p.name = lower key)
    (hb : ∀ m ∈ before, ∀ q, LineForm.ofBody? m.body = some (.pair q) → lower q.name ≠ lower key) :
    first? key t = some p := by
  rw [first?, LineMatch.scanLines_of_lines hl, hp, List.append_assoc, List.findSome?_append,
    List.findSome?_eq_none_iff.2]
  · simp [hname]
  · intro m hm
    obtain ⟨xs, n, ys, rfl, hn, -⟩ := LineMatch.exists_line_of_mem_ofLines hm
    cases hf : m.form with
    | comment lead marker rest => rfl
    | header lead name trail => rfl
    | pair q =>
      rw [hf] at hn
      simp [hb n (by simp) q hn]

namespace KeyLine

variable {key : KeyName} {t : Text}

theorem Written.form? {k : KeyLine} {values : Text} (h : k.Written values) :
    k.form? = some (.pair ⟨k.lead, k.name, k.gap, some ⟨[' '], values, []⟩⟩) := by
  obtain ⟨lead, name, gap, rfl⟩ := h.eq
  have hf : Assignment.Fits ⟨[' '], values, []⟩ :=
    ⟨by simp; decide, h.trimmed.stops_isBlank, h.trimmed.endStops_isBlank, by simp, fun _ => rfl⟩
  have hr : Assignment.ofRest (' ' :: values) = ⟨[' '], values, []⟩ := by
    simpa using Assignment.ofRest_of_fits hf
  simp [KeyLine.form?, hr, KeyLine.lead, KeyLine.name, KeyLine.gap]

/-- No line in front of the first line of a key is a pair of that name. -/
theorem Holds.exists_first? {name values : Text} (h : Holds key t name values) (ha : Ascii name) :
    ∃ p, Pair.first? key.text t = some p ∧ p.assignment.isSome = true ∧ p.valueText = values := by
  obtain ⟨before, k, e, after, hf, hw, rfl⟩ := h
  have hk : LineForm.ofBody? k.render = k.form? := ofBody?_render_of_ascii hf.fits ha
  rw [hw.form?] at hk
  refine ⟨⟨k.lead, k.name, k.gap, some ⟨[' '], values, []⟩⟩, Pair.first?_eq_some_of_lines hf.lines hk
    (KeyName.spells_and_ascii_iff.1 ⟨hf.fits.spells, ha⟩) fun m hm q hq hn => ?_, rfl, rfl⟩
  obtain ⟨j, hj⟩ := exists_ofBody?_of_pair hq hn
  rw [hf.none_before m hm] at hj
  cases hj

end KeyLine

/-- Merging values into a key one after another leaves the tokens that were there and adds those of
each value in order, as the scanner reads them in the first pair of the key. A line that spells the
key with letters outside ASCII is edited too, but the scanner takes it for no pair. -/
theorem mergeAll_keeps_tokens (t : Text) (key : KeyName) (values : List Text) (hne : values ≠ [])
    (hv : ∀ v ∈ values, ValueSource.OneLine v) :
    ∃ result, mergeAll key t values = .ok result ∧
      ((∀ n k, KeyLine.find? key.text t = some (n, k) → Ascii k.name) →
        ∃ p, Pair.first? key.text result = some p ∧ p.assignment.isSome = true ∧
          Token.texts p.valueText =
            Token.texts (KeyLine.existing key t) ++ values.flatMap Token.texts) := by
  obtain ⟨result, all, hr, hh, ht⟩ := KeyLine.exists_mergeAll hne hv t
  refine ⟨result, hr, fun ha => ?_⟩
  have hs : Ascii (KeyLine.spelling key t) := by
    unfold KeyLine.spelling
    cases hf : KeyLine.find? key.text t with
    | none => exact KeyName.ascii_of_isAlphanumeric key.isAlphanumeric_of_mem
    | some p => exact ha p.1 p.2 hf
  obtain ⟨p, hp, hsome, hval⟩ := hh.exists_first? hs
  exact ⟨p, hp, hsome, hval ▸ ht⟩

/-- Two values behind a line without an equals sign, whose name has another case, below a comment that
names the key too. -/
theorem mergeAll_keeps_tokens_loose :
    ∃ result, mergeAll ⟨"Dns".toList, by decide, by decide⟩ "#Dns=0\rDNS  9.9.9.9,\r\nMTU=1".toList
        ["1.1.1.1 8.8.8.8".toList, "dns".toList] = .ok result ∧
      ∃ p, Pair.first? "Dns".toList result = some p ∧ Token.texts p.valueText =
        ["9.9.9.9".toList, "1.1.1.1".toList, "8.8.8.8".toList, "dns".toList] := by
  have hv : ∀ v ∈ ["1.1.1.1 8.8.8.8".toList, "dns".toList], ValueSource.OneLine v := by
    intro v hv
    rcases List.mem_cons.1 hv with rfl | hv
    · exact ⟨by decide, by decide, by simp [IsBody]⟩
    · obtain rfl := List.mem_singleton.1 hv
      exact ⟨by decide, by decide, by simp [IsBody]⟩
  obtain ⟨result, hr, h⟩ := mergeAll_keeps_tokens "#Dns=0\rDNS  9.9.9.9,\r\nMTU=1".toList
    ⟨"Dns".toList, by decide, by decide⟩ _ (by decide) hv
  have hf : KeyLine.find? "Dns".toList "#Dns=0\rDNS  9.9.9.9,\r\nMTU=1".toList =
      some (7, .loose [] "DNS".toList "  ".toList "9.9.9.9,".toList) := by decide
  obtain ⟨p, hp, -, ht⟩ := h fun n k hk => by
    obtain ⟨-, rfl⟩ := Prod.mk.inj (Option.some.inj (hf.symm.trans hk))
    simp [Ascii, KeyLine.name]
  refine ⟨result, hr, p, hp, ?_⟩
  rw [ht]; decide

end TunnelConf
