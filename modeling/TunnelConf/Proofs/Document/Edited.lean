import TunnelConf.Proofs.Document.Blocks

/-!
# Documents that differ in one line

Two files that differ in one entry are read alike up to that line, and from there on the two readers have
the same section open and hold the same but for the entries of one section (`Reader.SameButOne`). What the
line has made of these entries (`InPlace`, `Fresh`, `Ahead`) further entries do not undo (`Stable`), and a
header that comes again ends the difference. Main statement: `Document.sameButOne_of_entry`.
-/

namespace TunnelConf

open Text

namespace Section

variable {key value : Text} {es es' : List Entry}

/-! ### One more value -/

theorem pushValue_cons_of_eq {e : Entry} (h : e.key = key) (value : Text) (es : List Entry) :
    pushValue key value (e :: es) = { e with values := e.values ++ [value] } :: es := by
  rw [pushValue, if_pos (by simpa using h)]

theorem pushValue_cons_self (key value : Text) (vs : List Text) (es : List Entry) :
    pushValue key value (⟨key, vs⟩ :: es) = ⟨key, vs ++ [value]⟩ :: es :=
  pushValue_cons_of_eq rfl value es

theorem pushValue_cons_of_ne {e : Entry} (h : e.key ≠ key) (value : Text) (es : List Entry) :
    pushValue key value (e :: es) = e :: pushValue key value es := by
  rw [pushValue, if_neg (by simpa using h)]

theorem mem_keys_pushValue {k : Text} :
    k ∈ (pushValue key value es).map Entry.key ↔ k = key ∨ k ∈ es.map Entry.key := by
  induction es with
  | nil => simp [pushValue]
  | cons e es ih =>
    by_cases he : e.key = key
    · simp [pushValue_cons_of_eq he, he]
    · rw [pushValue_cons_of_ne he, List.map_cons, List.map_cons, List.mem_cons, List.mem_cons, ih, or_left_comm]

theorem pushValue_append_of_mem (value : Text) {as : List Entry} (h : key ∈ as.map Entry.key) (bs : List Entry) :
    pushValue key value (as ++ bs) = pushValue key value as ++ bs := by
  induction as with
  | nil => cases h
  | cons a as ih =>
    by_cases ha : a.key = key
    · rw [List.cons_append, pushValue_cons_of_eq ha, pushValue_cons_of_eq ha, List.cons_append]
    · rw [List.cons_append, pushValue_cons_of_ne ha, pushValue_cons_of_ne ha,
        ih ((List.mem_cons.1 h).resolve_left (Ne.symm ha)), List.cons_append]

theorem pushValue_append_of_not_mem (value : Text) {as : List Entry} (h : key ∉ as.map Entry.key)
    (bs : List Entry) : pushValue key value (as ++ bs) = as ++ pushValue key value bs := by
  induction as with
  | nil => rfl
  | cons a as ih =>
    obtain ⟨ha, has⟩ := not_or.1 (List.mem_cons.not.1 h)
    rw [List.cons_append, pushValue_cons_of_ne (Ne.symm ha), ih has, List.cons_append]

/-! ### Entries before and after an edit -/

/-- Some values of the key are others now, and all else is the same in the same order. -/
inductive InPlace (key : Text) (old new : List Text) : List Entry → List Entry → Prop
  | values (vs ws : List Text) (es : List Entry) :
      InPlace key old new (⟨key, vs ++ (old ++ ws)⟩ :: es) (⟨key, vs ++ (new ++ ws)⟩ :: es)
  | cons {e : Entry} {es es' : List Entry} (he : e.key ≠ key) (h : InPlace key old new es es') :
      InPlace key old new (e :: es) (e :: es')

/-- The key is there now, with one value, and all else is the same in the same order. -/
inductive Fresh (key value : Text) : List Entry → List Entry → Prop
  | key {es : List Entry} (h : key ∉ es.map Entry.key) : Fresh key value es (⟨key, [value]⟩ :: es)
  | cons {e : Entry} {es es' : List Entry} (he : e.key ≠ key) (h : Fresh key value es es') :
      Fresh key value (e :: es) (e :: es')

/-- One value stands in front of all others of the key now, and the key has moved up to where it stands. -/
inductive Ahead (key value : Text) : List Entry → List Entry → Prop
  | key {between : List Entry} (h : key ∉ between.map Entry.key) (ws : List Text) (es : List Entry) :
      Ahead key value (between ++ ⟨key, ws⟩ :: es) (⟨key, value :: ws⟩ :: (between ++ es))
  | cons {e : Entry} {es es' : List Entry} (he : e.key ≠ key) (h : Ahead key value es es') :
      Ahead key value (e :: es) (e :: es')

/-- One value of the key has changed. -/
def Changes (key old new : Text) : List Entry → List Entry → Prop := InPlace key [old] [new]

/-- The key has one value more. -/
def Adds (key value : Text) (es es' : List Entry) : Prop := InPlace key [] [value] es es' ∨ Fresh key value es es'

/-- The key has one value more, and with it the key may have moved up. -/
def Gains (key value : Text) (es es' : List Entry) : Prop := Adds key value es es' ∨ Ahead key value es es'

/-- `lost` has become `value`, which is one of another key. -/
def Replaces (other lost key value : Text) (es es' : List Entry) : Prop :=
  ∃ rest, Gains other lost rest es ∧ Gains key value rest es'

/-- What two lists of entries have to do with each other does not change when both get one more value. -/
def Stable (R : List Entry → List Entry → Prop) : Prop :=
  ∀ key value es es', R es es' → R (pushValue key value es) (pushValue key value es')

/-- In front of what an edit is about, an entry of another key gets the value or passes it on. -/
theorem rel_pushValue_cons {R : List Entry → List Entry → Prop} {k v : Text} {e : Entry}
    (hcons : ∀ {e es es'}, e.key ≠ key → R es es' → R (e :: es) (e :: es')) (he : e.key ≠ key) (h : R es es')
    (ih : R (pushValue k v es) (pushValue k v es')) :
    R (pushValue k v (e :: es)) (pushValue k v (e :: es')) := by
  by_cases hk : e.key = k
  · rw [pushValue_cons_of_eq hk, pushValue_cons_of_eq hk]
    exact hcons he h
  · rw [pushValue_cons_of_ne hk, pushValue_cons_of_ne hk]
    exact hcons he ih

theorem stable_inPlace (key : Text) (old new : List Text) : Stable (InPlace key old new) := by
  intro k v es es' h
  induction h with
  | values vs ws es =>
    by_cases hk : key = k
    · subst hk
      rw [pushValue_cons_self, pushValue_cons_self]
      simpa only [List.append_assoc] using InPlace.values vs (ws ++ [v]) es
    · rw [pushValue_cons_of_ne hk, pushValue_cons_of_ne hk]
      exact .values vs ws _
  | cons he h ih => exact rel_pushValue_cons .cons he h ih

theorem stable_ahead (key value : Text) : Stable (Ahead key value) := by
  intro k v es es' h
  induction h with
  | @key between hbetween ws es =>
    by_cases hk : key = k
    · subst hk
      rw [pushValue_append_of_not_mem v hbetween, pushValue_cons_self, pushValue_cons_self]
      exact .key hbetween (ws ++ [v]) es
    · rw [pushValue_cons_of_ne hk]
      by_cases hb : k ∈ between.map Entry.key
      · rw [pushValue_append_of_mem v hb, pushValue_append_of_mem v hb]
        exact .key (fun hmem => (mem_keys_pushValue.1 hmem).elim hk hbetween) ws es
      · rw [pushValue_append_of_not_mem v hb, pushValue_append_of_not_mem v hb, pushValue_cons_of_ne hk]
        exact .key hbetween ws _
  | cons he h ih => exact rel_pushValue_cons .cons he h ih

/-- A value that a new key gets later makes the first one stand ahead. -/
theorem Fresh.push (h : Fresh key value es es') (k v : Text) :
    Fresh key value (pushValue k v es) (pushValue k v es') ∨ Ahead key value (pushValue k v es) (pushValue k v es') := by
  induction h with
  | @key es hnew =>
    by_cases hk : key = k
    · subst hk
      rw [pushValue_of_not_mem v hnew, pushValue_cons_self]
      have hahead : Ahead key value (es ++ ⟨key, [v]⟩ :: []) (⟨key, value :: [v]⟩ :: (es ++ [])) :=
        .key hnew [v] []
      right
      simpa using hahead
    · rw [pushValue_cons_of_ne hk]
      exact .inl (.key fun hmem => (mem_keys_pushValue.1 hmem).elim hk hnew)
  | cons he h ih =>
    exact rel_pushValue_cons (R := fun es es' => Fresh key value es es' ∨ Ahead key value es es')
      (fun he h => h.imp (.cons he) (.cons he)) he (.inl h) ih

theorem stable_gains (key value : Text) : Stable (Gains key value) := by
  rintro k v es es' ((h | h) | h)
  · exact .inl (.inl (stable_inPlace key [] [value] k v es es' h))
  · rcases h.push k v with h | h
    · exact .inl (.inr h)
    · exact .inr h
  · exact .inr (stable_ahead key value k v es es' h)

theorem stable_replaces (other lost key value : Text) : Stable (Replaces other lost key value) := by
  rintro k v es es' ⟨rest, h, h'⟩
  exact ⟨_, stable_gains other lost k v rest es h, stable_gains key value k v rest es' h'⟩

theorem adds_pushValue (key value : Text) (es : List Entry) : Adds key value es (pushValue key value es) := by
  induction es with
  | nil => exact .inr (.key List.not_mem_nil)
  | cons e es ih =>
    by_cases he : e.key = key
    · obtain ⟨c, vs⟩ := e
      obtain rfl : c = key := he
      rw [pushValue_cons_self]
      have hvalues : InPlace c [] [value] (⟨c, vs ++ ([] ++ [])⟩ :: es) (⟨c, vs ++ ([value] ++ [])⟩ :: es) :=
        .values vs [] es
      left
      simpa using hvalues
    · rw [pushValue_cons_of_ne he]
      exact ih.imp (.cons he) (.cons he)

theorem changes_pushValue (key old new : Text) (es : List Entry) :
    Changes key old new (pushValue key old es) (pushValue key new es) := by
  induction es with
  | nil => exact InPlace.values [] [] []
  | cons e es ih =>
    by_cases he : e.key = key
    · obtain ⟨c, vs⟩ := e
      obtain rfl : c = key := he
      rw [pushValue_cons_self, pushValue_cons_self]
      exact InPlace.values vs [] es
    · rw [pushValue_cons_of_ne he, pushValue_cons_of_ne he]
      exact .cons he ih

theorem InPlace.map_key {old new : List Text} (h : InPlace key old new es es') :
    es'.map Entry.key = es.map Entry.key := by
  induction h with
  | values => rfl
  | cons _ _ ih => rw [List.map_cons, List.map_cons, ih]

theorem Adds.sublist_keys (h : Adds key value es es') : (es.map Entry.key).Sublist (es'.map Entry.key) := by
  rcases h with h | h
  · rw [h.map_key]
  · induction h with
    | key h => exact List.sublist_cons_self ..
    | cons _ _ ih => exact ih.cons_cons _

/-- One value of the key is added or changed, and all else is the same in the same order. -/
def OneValue (key : Text) (es es' : List Entry) : Prop :=
  ∃ k, lower k = lower key ∧ ((∃ value, Adds k value es es') ∨ ∃ old new, Changes k old new es es')

theorem OneValue.sublist_keys (h : OneValue key es es') : (es.map Entry.key).Sublist (es'.map Entry.key) := by
  obtain ⟨k, -, ⟨value, h⟩ | ⟨old, new, h⟩⟩ := h
  · exact h.sublist_keys
  · rw [InPlace.map_key h]

end Section

/-! ### Documents before and after an edit -/

namespace Document

open Section

/-- The same sections in the same order, but for the entries of one of them at most. -/
inductive SameButOne (R : List Entry → List Entry → Prop) : List Section → List Section → Prop
  | same (ss : List Section) : SameButOne R ss ss
  | entries (name : Text) {es es' : List Entry} (h : R es es') (ss : List Section) :
      SameButOne R (⟨name, es⟩ :: ss) (⟨name, es'⟩ :: ss)
  | cons (s : Section) {ss ss' : List Section} (h : SameButOne R ss ss') : SameButOne R (s :: ss) (s :: ss')

variable {R : List Entry → List Entry → Prop} {ss ss' : List Section}

theorem SameButOne.openSection (h : SameButOne R ss ss') (name : Text) :
    SameButOne R (openSection name ss) (openSection name ss') := by
  induction h with
  | same ss => exact .same _
  | entries n h ss =>
    rw [Document.openSection, Document.openSection]
    split
    · exact .same _
    · exact .entries n h _
  | cons s h ih =>
    rw [Document.openSection, Document.openSection]
    split
    · exact .cons _ h
    · exact .cons s ih

theorem SameButOne.pushEntry (hR : Stable R) (h : SameButOne R ss ss') (name key value : Text) :
    SameButOne R (pushEntry name key value ss) (pushEntry name key value ss') := by
  induction h with
  | same ss => exact .same _
  | @entries n es es' h ss =>
    rw [Document.pushEntry, Document.pushEntry, List.map_cons, List.map_cons]
    split
    · exact .entries n (hR key value es es' h) _
    · exact .entries n h _
  | cons s h ih => exact .cons _ ih

/-- Only the section with the name can have become another. -/
theorem sameButOne_map {f g : List Entry → List Entry} (hn : (ss.map Section.name).Nodup)
    (h : ∀ es, R (f es) (g es)) (current : Option Text) :
    SameButOne R (ss.map fun s => if current = some s.name then ⟨s.name, f s.entries⟩ else s)
      (ss.map fun s => if current = some s.name then ⟨s.name, g s.entries⟩ else s) := by
  induction ss with
  | nil => exact .same _
  | cons s ss ih =>
    obtain ⟨hs, hss⟩ := List.nodup_cons.1 hn
    rw [List.map_cons, List.map_cons]
    by_cases hc : current = some s.name
    · subst hc
      have hrest : ∀ f : List Entry → List Entry,
          (ss.map fun u => if some s.name = some u.name then ⟨u.name, f u.entries⟩ else u) = ss := fun f => by
        simp only [Option.some.injEq, eq_comm (a := s.name)]
        exact map_ite_of_not_mem Section.name (fun u => ⟨u.name, f u.entries⟩) hs
      rw [if_pos rfl, if_pos rfl, hrest f, hrest g]
      exact .entries s.name (h s.entries) ss
    · rw [if_neg hc, if_neg hc]
      exact .cons s (ih hss)

theorem SameButOne.forall₂_keys {key : Text} (h : SameButOne (OneValue key) ss ss') :
    List.Forall₂ (fun s s' => s.keys.Sublist s'.keys) ss ss' := by
  induction h with
  | same ss => exact List.forall₂_same.2 fun s _ => .refl s.keys
  | entries name h ss => exact .cons h.sublist_keys (List.forall₂_same.2 fun s _ => .refl s.keys)
  | cons s h ih => exact .cons (.refl s.keys) ih

/-- Two readers that have the same section open and hold the same but for the entries of one section. -/
structure Reader.SameButOne (R : List Entry → List Entry → Prop) (r r' : Reader) : Prop where
  current : r'.current = r.current
  sections : Document.SameButOne R r.sections r'.sections

namespace Reader

variable {r r' : Reader}

theorem SameButOne.step (hR : Stable R) (h : r.SameButOne R r') (s : Statement) :
    (r.step s).SameButOne R (r'.step s) := by
  obtain ⟨ss, current⟩ := r
  obtain ⟨ss', current'⟩ := r'
  obtain ⟨hcurrent, hss⟩ := h
  obtain rfl : current' = current := hcurrent
  cases s with
  | header name => exact ⟨rfl, hss.openSection name⟩
  | entry key value =>
    cases current' with
    | none => exact ⟨rfl, hss⟩
    | some name => exact ⟨rfl, hss.pushEntry hR name key value⟩

theorem SameButOne.foldl (hR : Stable R) (h : r.SameButOne R r') (statements : List Statement) :
    (statements.foldl Reader.step r).SameButOne R (statements.foldl Reader.step r') :=
  List.foldl_rel h fun s _ _ _ h => h.step hR s

/-- One reader sees an entry, and the other one another entry or none. -/
theorem sameButOne_step (old : Option (Text × Text)) {key value : Text} (hn : (r.sections.map Section.name).Nodup)
    (h : ∀ es, R (old.elim es fun e => pushValue e.1 e.2 es) (pushValue key value es)) :
    (old.elim r fun e => r.step (.entry e.1 e.2)).SameButOne R (r.step (.entry key value)) := by
  have hmap := sameButOne_map hn h r.current
  cases old with
  | none =>
    refine ⟨by rw [step_entry]; rfl, ?_⟩
    rw [step_entry]
    simpa [Section.push] using hmap
  | some e =>
    refine ⟨by rw [Option.elim_some, step_entry, step_entry], ?_⟩
    rw [Option.elim_some, step_entry, step_entry]
    exact hmap

end Reader

/-! ### Main statements -/

/-- Two files that differ in one entry: what the one line makes of the entries that are there, the lines behind
it do not change. -/
theorem sameButOne_of_entry (hR : Stable R) (before after : List Statement) {old : Option (Text × Text)}
    {key value : Text} (h : ∀ es, R (old.elim es fun e => pushValue e.1 e.2 es) (pushValue key value es)) :
    SameButOne R
      (ofStatements (before ++ (old.map fun e => Statement.entry e.1 e.2).toList ++ after)).sections
      (ofStatements (before ++ [.entry key value] ++ after)).sections := by
  have hn := (Reader.reads_foldl before).names.nodup
  have hstep := (Reader.sameButOne_step old hn h).foldl hR after
  rw [ofStatements, ofStatements, List.foldl_append, List.foldl_append, List.foldl_append, List.foldl_append]
  cases old with
  | none => exact hstep.sections
  | some e => exact hstep.sections

/-- One more entry at the end of a file. -/
theorem sameButOne_concat (statements : List Statement) (key value : Text) :
    SameButOne (Adds key value) (ofStatements statements).sections
      (ofStatements (statements ++ [.entry key value])).sections := by
  have hn := (Reader.reads_foldl statements).names.nodup
  have hstep := Reader.sameButOne_step none hn (adds_pushValue key value)
  rw [ofStatements, ofStatements, List.foldl_append]
  exact hstep.sections

end Document

end TunnelConf
