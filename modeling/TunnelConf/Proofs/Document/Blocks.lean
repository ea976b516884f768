import Mathlib.Data.List.Forall2
import TunnelConf.Proofs.Document.Statements

/-!
# The blocks of a file

A file is read from top to bottom, and a header that comes again starts its section over. So a section
holds what the block behind the last header of its name gives (`LastBlock`, `Section.Gathers`), and the
sections stand in the order of their first headers (`FirstSeen`). One statement more changes at most one
section (`Reader.Reads.step`), and by induction a reader stands for all statements that it has seen
(`reads_foldl`). Main statement: `parse_exact`, there is no other such document.
-/

namespace TunnelConf

open Text

/-! ### Members in the order in which they come -/

/-- `ys` lists the members of `xs`, each once and in the order in which they first come. -/
structure FirstSeen {α : Type} [DecidableEq α] (xs ys : List α) : Prop where
  nodup : ys.Nodup
  mem_iff : ∀ x, x ∈ ys ↔ x ∈ xs
  ordered : ys.Pairwise fun x y => xs.idxOf x < xs.idxOf y

namespace FirstSeen

variable {α : Type} [DecidableEq α] {xs ys zs : List α} {x : α}

theorem nil : FirstSeen ([] : List α) [] := ⟨.nil, fun _ => Iff.rfl, .nil⟩

theorem idxOf_concat_lt (h : FirstSeen xs ys) (x : α) :
    ys.Pairwise fun y z => (xs ++ [x]).idxOf y < (xs ++ [x]).idxOf z := by
  refine h.ordered.imp_of_mem fun {y z} hy hz hlt => ?_
  rw [List.idxOf_append_of_mem ((h.mem_iff y).1 hy), List.idxOf_append_of_mem ((h.mem_iff z).1 hz)]
  exact hlt

theorem concat_of_mem (h : FirstSeen xs ys) (hx : x ∈ ys) : FirstSeen (xs ++ [x]) ys := by
  refine ⟨h.nodup, fun y => ?_, h.idxOf_concat_lt x⟩
  rw [List.mem_append, List.mem_singleton, h.mem_iff]
  constructor
  · exact .inl
  · rintro (hy | rfl)
    · exact hy
    · exact (h.mem_iff y).1 hx

theorem concat_of_not_mem (h : FirstSeen xs ys) (hx : x ∉ ys) : FirstSeen (xs ++ [x]) (ys ++ [x]) := by
  refine ⟨?_, fun y => ?_, ?_⟩
  · rw [List.nodup_append]
    refine ⟨h.nodup, List.pairwise_singleton .., fun y hy z hz => ?_⟩
    rintro rfl
    exact hx (List.mem_singleton.1 hz ▸ hy)
  · rw [List.mem_append, List.mem_append, h.mem_iff]
  · rw [List.pairwise_append]
    refine ⟨h.idxOf_concat_lt x, List.pairwise_singleton .., fun y hy z hz => ?_⟩
    rw [List.mem_singleton.1 hz]
    have hy := (h.mem_iff y).1 hy
    have hx : x ∉ xs := fun hmem => hx ((h.mem_iff x).2 hmem)
    rw [List.idxOf_append_of_mem hy, List.idxOf_append_of_notMem hx]
    have := List.idxOf_lt_length_of_mem hy
    omega

theorem unique (h : FirstSeen xs ys) (h' : FirstSeen xs zs) : ys = zs := by
  refine List.Perm.eq_of_pairwise (fun a b _ _ hab hba => ?_) h.ordered h'.ordered ?_
  · omega
  · refine (List.perm_ext_iff_of_nodup h.nodup h'.nodup).2 fun x => ?_
    rw [h.mem_iff, h'.mem_iff]

end FirstSeen

/-- Two lists with the same names in the same order are the same if what has a name is determined by it. -/
theorem eq_of_map_eq {α β : Type} (f : α → β) {xs ys : List α} (h : xs.map f = ys.map f)
    (hinj : ∀ x ∈ xs, ∀ y ∈ ys, f x = f y → x = y) : xs = ys := by
  induction xs generalizing ys with
  | nil => exact (List.map_eq_nil_iff.1 h.symm).symm
  | cons x xs ih =>
    cases ys with
    | nil => cases h
    | cons y ys =>
      obtain ⟨hx, hxs⟩ := List.cons.inj h
      rw [hinj x (by simp) y (by simp) hx,
        ih hxs fun x hx y hy => hinj x (List.mem_cons_of_mem _ hx) y (List.mem_cons_of_mem _ hy)]

/-! ### The entries of a section -/

/-- The values that a block gives for a key. -/
def given (key : Text) (block : List (Text × Text)) : List Text :=
  (block.filter fun e => e.1 = key).map Prod.snd

theorem given_concat_self (key value : Text) (block : List (Text × Text)) :
    given key (block ++ [(key, value)]) = given key block ++ [value] := by
  simp [given]

theorem given_concat_ne {key k : Text} (h : k ≠ key) (value : Text) (block : List (Text × Text)) :
    given key (block ++ [(k, value)]) = given key block := by
  simp [given, h]

theorem given_eq_nil {key : Text} {block : List (Text × Text)} (h : key ∉ block.map Prod.fst) :
    given key block = [] := by
  rw [given, List.map_eq_nil_iff, List.filter_eq_nil_iff]
  intro e he hkey
  exact h (List.mem_map.2 ⟨e, he, by simpa using hkey⟩)

/-- Nothing happens to a list in which nothing has the name. -/
theorem map_ite_of_not_mem {α β : Type} [DecidableEq β] (name : α → β) (f : α → α) {y : β} {xs : List α}
    (h : y ∉ xs.map name) : (xs.map fun x => if name x = y then f x else x) = xs := by
  refine (List.map_congr_left fun x hx => ?_).trans (List.map_id xs)
  refine if_neg fun hxy => h ?_
  rw [← hxy]
  exact List.mem_map_of_mem hx

namespace Section

/-- The section holds what a block gives: its keys as they first come, each with all its values. Without a
name it holds nothing. -/
structure Gathers (block : List (Text × Text)) (s : Section) : Prop where
  nameless : s.name = [] → s.entries = []
  keys : s.name ≠ [] → FirstSeen (block.map Prod.fst) s.keys
  values : ∀ e ∈ s.entries, e.values = given e.key block ∧ e.values ≠ []

theorem pushValue_of_not_mem {key : Text} (value : Text) {es : List Entry} (h : key ∉ es.map Entry.key) :
    pushValue key value es = es ++ [⟨key, [value]⟩] := by
  induction es with
  | nil => rfl
  | cons e es ih =>
    obtain ⟨he, hes⟩ := not_or.1 (List.mem_cons.not.1 h)
    rw [pushValue, if_neg (by simpa using Ne.symm he), ih hes, List.cons_append]

theorem pushValue_of_mem {key : Text} (value : Text) {es : List Entry} (hn : (es.map Entry.key).Nodup)
    (h : key ∈ es.map Entry.key) : pushValue key value es =
      es.map fun e => if e.key = key then { e with values := e.values ++ [value] } else e := by
  induction es with
  | nil => cases h
  | cons e es ih =>
    obtain ⟨he, hes⟩ := List.nodup_cons.1 hn
    rw [pushValue, List.map_cons]
    by_cases hkey : e.key = key
    · rw [if_pos (by simpa using hkey), if_pos hkey, map_ite_of_not_mem Entry.key _ (hkey ▸ he)]
    · rw [if_neg (by simpa using hkey), if_neg hkey, ih hes ((List.mem_cons.1 h).resolve_left (Ne.symm hkey))]

namespace Gathers

variable {block : List (Text × Text)} {s s' : Section}

theorem fresh (name : Text) : Gathers [] ⟨name, []⟩ :=
  ⟨fun _ => rfl, fun _ => .nil, fun _ he => (List.not_mem_nil he).elim⟩

theorem of_nameless (hname : s.name = []) (he : s.entries = []) : s.Gathers block :=
  ⟨fun _ => he, fun hne => absurd hname hne, fun e hmem => by rw [he] at hmem; cases hmem⟩

theorem push_of_mem (h : s.Gathers block) (hname : s.name ≠ []) {key : Text} (value : Text)
    (hkey : key ∈ s.keys) : (s.push key value).Gathers (block ++ [(key, value)]) := by
  have hpush := pushValue_of_mem value (h.keys hname).nodup hkey
  refine ⟨fun hn => absurd hn hname, fun _ => ?_, fun e he => ?_⟩
  · have hkeys : (s.push key value).keys = s.keys := by
      rw [Section.keys, Section.push, hpush, List.map_map]
      refine List.map_congr_left fun e _ => ?_
      simp only [Function.comp_apply]
      split <;> rfl
    rw [hkeys, List.map_append]
    exact (h.keys hname).concat_of_mem hkey
  · rw [Section.push, hpush] at he
    obtain ⟨d, hd, rfl⟩ := List.mem_map.1 he
    obtain ⟨hvalues, hne⟩ := h.values d hd
    split
    · next hdkey =>
      subst hdkey
      exact ⟨by rw [hvalues, given_concat_self], by simp⟩
    · next hdkey => exact ⟨by rw [hvalues, given_concat_ne (Ne.symm hdkey)], hne⟩

theorem push_of_not_mem (h : s.Gathers block) (hname : s.name ≠ []) {key : Text} (value : Text)
    (hkey : key ∉ s.keys) : (s.push key value).Gathers (block ++ [(key, value)]) := by
  have hpush := pushValue_of_not_mem value hkey
  refine ⟨fun hn => absurd hn hname, fun _ => ?_, fun e he => ?_⟩
  · rw [Section.keys, Section.push, hpush, List.map_append, List.map_append]
    exact (h.keys hname).concat_of_not_mem hkey
  · rw [Section.push, hpush, List.mem_append, List.mem_singleton] at he
    rcases he with he | rfl
    · obtain ⟨hvalues, hne⟩ := h.values e he
      have hekey : key ≠ e.key := fun heq => hkey (heq ▸ List.mem_map_of_mem he)
      exact ⟨by rw [hvalues, given_concat_ne hekey], hne⟩
    · have hnew : key ∉ block.map Prod.fst := fun hmem => hkey (((h.keys hname).mem_iff key).2 hmem)
      exact ⟨by rw [given_concat_self, given_eq_nil hnew]; rfl, by simp⟩

/-- One value more. -/
theorem push (h : s.Gathers block) (hname : s.name ≠ []) (key value : Text) :
    (s.push key value).Gathers (block ++ [(key, value)]) := by
  by_cases hkey : key ∈ s.keys
  · exact h.push_of_mem hname value hkey
  · exact h.push_of_not_mem hname value hkey

theorem unique (h : s.Gathers block) (h' : s'.Gathers block) (hname : s.name = s'.name) : s = s' := by
  obtain ⟨name, entries⟩ := s
  obtain ⟨name', entries'⟩ := s'
  obtain rfl : name = name' := hname
  refine congrArg _ ?_
  by_cases hn : name = []
  · exact (h.nameless hn).trans (h'.nameless hn).symm
  · refine eq_of_map_eq Entry.key ((h.keys hn).unique (h'.keys hn)) fun e he d hd hkey => ?_
    obtain ⟨k, vs⟩ := e
    obtain ⟨k', vs'⟩ := d
    obtain rfl : k = k' := hkey
    exact congrArg _ ((h.values _ he).1.trans (h'.values _ hd).1.symm)

theorem mem_block (h : s.Gathers block) {e : Entry} (he : e ∈ s.entries) {value : Text}
    (hv : value ∈ e.values) : (e.key, value) ∈ block := by
  rw [(h.values e he).1] at hv
  obtain ⟨⟨k, v⟩, hmem, rfl⟩ := List.mem_map.1 hv
  obtain ⟨hblock, hk⟩ := List.mem_filter.1 hmem
  obtain rfl : k = e.key := by simpa using hk
  exact hblock

end Gathers

end Section

/-! ### The last block of a name -/

namespace Statement

def header? : Statement → Option Text
  | .header name => some name
  | .entry .. => none

theorem header?_eq_some_iff {s : Statement} {name : Text} : s.header? = some name ↔ s = .header name := by
  cases s <;> simp [header?]

end Statement

/-- The names of the headers, in order. -/
def headers (statements : List Statement) : List Text := statements.filterMap Statement.header?

theorem headers_concat_header (statements : List Statement) (name : Text) :
    headers (statements ++ [.header name]) = headers statements ++ [name] := by
  rw [headers, List.filterMap_append]; rfl

theorem headers_concat_entry (statements : List Statement) (key value : Text) :
    headers (statements ++ [.entry key value]) = headers statements := by
  rw [headers, List.filterMap_append, headers]
  exact List.append_nil _

theorem mem_headers_iff {statements : List Statement} {name : Text} :
    name ∈ headers statements ↔ Statement.header name ∈ statements := by
  simp [headers, List.mem_filterMap, Statement.header?_eq_some_iff]

/-- `block` is what stands between the last header of a name and the next header, if there is one. -/
structure LastBlock (statements : List Statement) (name : Text) (before : List Statement)
    (block : List (Text × Text)) (rest : List Statement) : Prop where
  split : statements = before ++ .header name :: (block.map (fun e => .entry e.1 e.2) ++ rest)
  ends : ∀ s ∈ rest.head?, ∃ n, s = .header n
  last : Statement.header name ∉ rest

namespace LastBlock

variable {statements before rest : List Statement} {name : Text} {block : List (Text × Text)}

theorem header_self (statements : List Statement) (name : Text) :
    LastBlock (statements ++ [.header name]) name statements [] [] :=
  ⟨rfl, fun _ hs => (Option.not_mem_none _ hs).elim, List.not_mem_nil⟩

theorem header_ne (h : LastBlock statements name before block rest) {n : Text} (hn : n ≠ name) :
    LastBlock (statements ++ [.header n]) name before block (rest ++ [.header n]) := by
  refine ⟨by rw [h.split]; simp, fun s hs => ?_, ?_⟩
  · cases rest with
    | nil =>
      obtain rfl : Statement.header n = s := by simpa using hs
      exact ⟨n, rfl⟩
    | cons r rest => exact h.ends s hs
  · rw [List.mem_append, List.mem_singleton]
    rintro (hmem | heq)
    · exact h.last hmem
    · exact hn (Statement.header.inj heq).symm

theorem entry_open (h : LastBlock statements name before block []) (key value : Text) :
    LastBlock (statements ++ [.entry key value]) name before (block ++ [(key, value)]) [] :=
  ⟨by rw [h.split]; simp, h.ends, h.last⟩

theorem entry_closed (h : LastBlock statements name before block rest) (hrest : rest ≠ [])
    (key value : Text) :
    LastBlock (statements ++ [.entry key value]) name before block (rest ++ [.entry key value]) := by
  refine ⟨by rw [h.split]; simp, fun s hs => ?_, ?_⟩
  · rw [List.head?_append_of_ne_nil _ hrest] at hs
    exact h.ends s hs
  · rw [List.mem_append, List.mem_singleton]
    rintro (hmem | heq)
    · exact h.last hmem
    · cases heq

/-- The last place of something in a list is one place. -/
theorem eq_of_append_cons_eq {α : Type} {x : α} {as bs cs ds : List α} (h : as ++ x :: bs = cs ++ x :: ds)
    (hb : x ∉ bs) (hd : x ∉ ds) : bs = ds := by
  rcases List.append_eq_append_iff.1 h with ⟨w, -, hw⟩ | ⟨w, -, hw⟩
  · rcases List.cons_eq_append_iff.1 hw with ⟨-, hw⟩ | ⟨w, -, rfl⟩
    · exact (List.cons.inj hw).2.symm
    · exact absurd (by simp) hb
  · rcases List.cons_eq_append_iff.1 hw with ⟨-, hw⟩ | ⟨w, -, rfl⟩
    · exact (List.cons.inj hw).2
    · exact absurd (by simp) hd

/-- Entries up to the next header. -/
theorem entries_eq_of_append_eq {block block' : List (Text × Text)} {rest rest' : List Statement}
    (h : block.map (fun e => Statement.entry e.1 e.2) ++ rest = block'.map (fun e => .entry e.1 e.2) ++ rest')
    (hr : ∀ s ∈ rest.head?, ∃ n, s = .header n) (hr' : ∀ s ∈ rest'.head?, ∃ n, s = .header n) :
    block = block' := by
  induction block generalizing block' with
  | nil =>
    cases block' with
    | nil => rfl
    | cons e block' =>
      obtain ⟨n, hn⟩ := hr (.entry e.1 e.2) (by rw [show rest = _ from h]; rfl)
      cases hn
  | cons e block ih =>
    cases block' with
    | nil =>
      obtain ⟨n, hn⟩ := hr' (.entry e.1 e.2) (by rw [show rest' = _ from h.symm]; rfl)
      cases hn
    | cons d block' =>
      obtain ⟨hed, h⟩ := List.cons.inj h
      obtain ⟨h₁, h₂⟩ := Statement.entry.inj hed
      rw [ih h, Prod.ext h₁ h₂]

/-- The block is still open if no header has come since. -/
theorem rest_eq_nil_iff (h : LastBlock statements name before block rest) :
    rest = [] ↔ (headers statements).getLast? = some name := by
  have hblock : headers (block.map fun e => .entry e.1 e.2) = [] := by
    rw [headers, List.filterMap_map]
    exact List.filterMap_eq_nil_iff.2 fun _ _ => rfl
  have hheaders : headers statements = headers before ++ name :: headers rest := by
    rw [h.split, headers, List.filterMap_append, List.filterMap_cons]
    simp only [Statement.header?, List.filterMap_append]
    rw [← headers, ← headers, hblock, List.nil_append]
    rfl
  rw [hheaders, List.getLast?_append_of_ne_nil _ (List.cons_ne_nil name (headers rest))]
  constructor
  · rintro rfl; rfl
  · intro hlast
    cases rest with
    | nil => rfl
    | cons r rest =>
      obtain ⟨n, rfl⟩ := h.ends r rfl
      have hmem : name ∈ headers (.header n :: rest) := by
        rw [List.getLast?_cons_of_ne_nil (by simp [headers, Statement.header?])] at hlast
        exact List.mem_of_getLast? hlast
      exact absurd (mem_headers_iff.1 hmem) h.last

theorem mem_statements (h : LastBlock statements name before block rest) {key value : Text}
    (hmem : (key, value) ∈ block) : .entry key value ∈ statements := by
  rw [h.split]
  simp [hmem]

theorem unique (h : LastBlock statements name before block rest) {before' rest' : List Statement}
    {block' : List (Text × Text)} (h' : LastBlock statements name before' block' rest') :
    block = block' := by
  have hnot : ∀ {block : List (Text × Text)} {rest : List Statement}, .header name ∉ rest →
      .header name ∉ block.map (fun e => Statement.entry e.1 e.2) ++ rest := by
    intro block rest hrest
    simp [hrest]
  have hsplit := eq_of_append_cons_eq (h.split.symm.trans h'.split) (hnot h.last) (hnot h'.last)
  exact entries_eq_of_append_eq hsplit h.ends h'.ends

end LastBlock

/-- The section is made of the last block of its name. -/
def Section.FromLastBlock (statements : List Statement) (s : Section) : Prop :=
  ∃ before block rest, LastBlock statements s.name before block rest ∧ s.Gathers block

namespace Document

/-- The document that the statements describe. -/
structure Holds (statements : List Statement) (d : Document) : Prop where
  names : FirstSeen (headers statements) d.names
  sections : ∀ s ∈ d.sections, Section.FromLastBlock statements s

/-! ### Reading statement by statement -/

theorem openSection_of_not_mem {name : Text} {ss : List Section} (h : name ∉ ss.map Section.name) :
    openSection name ss = ss ++ [⟨name, []⟩] := by
  induction ss with
  | nil => rfl
  | cons s ss ih =>
    obtain ⟨hs, hss⟩ := not_or.1 (List.mem_cons.not.1 h)
    rw [openSection, if_neg (by simpa using Ne.symm hs), ih hss, List.cons_append]

theorem openSection_of_mem {name : Text} {ss : List Section} (hn : (ss.map Section.name).Nodup)
    (h : name ∈ ss.map Section.name) :
    openSection name ss = ss.map fun s => if s.name = name then ⟨name, []⟩ else s := by
  induction ss with
  | nil => cases h
  | cons s ss ih =>
    obtain ⟨hs, hss⟩ := List.nodup_cons.1 hn
    rw [openSection, List.map_cons]
    by_cases hname : s.name = name
    · rw [if_pos (by simpa using hname), if_pos hname, map_ite_of_not_mem Section.name _ (hname ▸ hs)]
    · rw [if_neg (by simpa using hname), if_neg hname, ih hss ((List.mem_cons.1 h).resolve_left (Ne.symm hname))]

/-- A reader that has seen the statements. -/
structure Reader.Reads (statements : List Statement) (r : Reader) : Prop
    extends Holds statements ⟨r.sections⟩ where
  /-- A header without a name leaves no section open. -/
  current : r.current = (headers statements).getLast?.filter fun name => !name.isEmpty

namespace Reader

variable {statements : List Statement} {r : Reader}

theorem step_entry (r : Reader) (key value : Text) : r.step (.entry key value) =
    { r with sections := r.sections.map fun s => if r.current = some s.name then s.push key value else s } := by
  obtain ⟨ss, current⟩ := r
  cases current with
  | none => simp [step]
  | some name =>
    simp only [step, pushEntry, beq_iff_eq, Option.some.injEq]
    refine congrArg (Reader.mk · (some name)) (List.map_congr_left fun s _ => ?_)
    simp only [eq_comm]

theorem Reads.header_of_mem (h : r.Reads statements) {name : Text} (hname : name ∈ r.sections.map Section.name) :
    (r.step (.header name)).Reads (statements ++ [.header name]) := by
  have hopen := openSection_of_mem h.names.nodup hname
  have hnames : (openSection name r.sections).map Section.name = r.sections.map Section.name := by
    rw [hopen, List.map_map]
    refine List.map_congr_left fun s _ => ?_
    simp only [Function.comp_apply]
    split
    · next hs => exact hs.symm
    · rfl
  refine ⟨⟨?_, fun s hs => ?_⟩, ?_⟩
  · show FirstSeen _ ((openSection name r.sections).map Section.name)
    rw [headers_concat_header, hnames]
    exact h.names.concat_of_mem hname
  · change s ∈ openSection name r.sections at hs
    rw [hopen] at hs
    obtain ⟨u, hu, rfl⟩ := List.mem_map.1 hs
    split
    · exact ⟨_, _, _, .header_self statements name, .fresh name⟩
    · next hne =>
      obtain ⟨before, block, rest, hblock, hgathers⟩ := h.sections u hu
      exact ⟨_, _, _, hblock.header_ne (Ne.symm hne), hgathers⟩
  · rw [headers_concat_header, List.getLast?_concat, step]
    cases name <;> rfl

theorem Reads.header_of_not_mem (h : r.Reads statements) {name : Text}
    (hname : name ∉ r.sections.map Section.name) :
    (r.step (.header name)).Reads (statements ++ [.header name]) := by
  have hopen := openSection_of_not_mem hname
  refine ⟨⟨?_, fun s hs => ?_⟩, ?_⟩
  · show FirstSeen _ ((openSection name r.sections).map Section.name)
    rw [headers_concat_header, hopen, List.map_append]
    exact h.names.concat_of_not_mem hname
  · change s ∈ openSection name r.sections at hs
    rw [hopen, List.mem_append, List.mem_singleton] at hs
    rcases hs with hs | rfl
    · obtain ⟨before, block, rest, hblock, hgathers⟩ := h.sections s hs
      have hne : name ≠ s.name := fun heq => hname (heq ▸ List.mem_map_of_mem hs)
      exact ⟨_, _, _, hblock.header_ne hne, hgathers⟩
    · exact ⟨_, _, _, .header_self statements name, .fresh name⟩
  · rw [headers_concat_header, List.getLast?_concat, step]
    cases name <;> rfl

theorem Reads.entry (h : r.Reads statements) (key value : Text) :
    (r.step (.entry key value)).Reads (statements ++ [.entry key value]) := by
  rw [step_entry]
  refine ⟨⟨?_, fun s hs => ?_⟩, ?_⟩
  · have hnames : (r.sections.map fun s => if r.current = some s.name then s.push key value else s).map
        Section.name = r.sections.map Section.name := by
      rw [List.map_map]
      refine List.map_congr_left fun s _ => ?_
      simp only [Function.comp_apply]
      split <;> rfl
    rw [Document.names, headers_concat_entry, hnames]
    exact h.names
  · obtain ⟨u, hu, rfl⟩ := List.mem_map.1 hs
    obtain ⟨before, block, rest, hblock, hgathers⟩ := h.sections u hu
    by_cases hrest : rest = []
    · -- the block of the section is open, and the entry goes into it unless the section has no name
      have hlast := hblock.rest_eq_nil_iff.1 hrest
      subst hrest
      by_cases hname : u.name = []
      · have hcurrent : r.current ≠ some u.name := by rw [h.current, hlast, hname]; simp
        rw [if_neg hcurrent]
        exact ⟨_, _, _, hblock.entry_open key value, .of_nameless hname (hgathers.nameless hname)⟩
      · have hcurrent : r.current = some u.name := by rw [h.current, hlast]; simp [hname]
        rw [if_pos hcurrent]
        exact ⟨_, _, _, hblock.entry_open key value, hgathers.push hname key value⟩
    · have hcurrent : r.current ≠ some u.name := by
        intro hc
        rw [h.current, Option.filter_eq_some_iff] at hc
        exact hrest (hblock.rest_eq_nil_iff.2 hc.1)
      rw [if_neg hcurrent]
      exact ⟨_, _, _, hblock.entry_closed hrest key value, hgathers⟩
  · rw [headers_concat_entry]
    exact h.current

theorem Reads.step (h : r.Reads statements) (s : Statement) : (r.step s).Reads (statements ++ [s]) := by
  cases s with
  | header name =>
    by_cases hname : name ∈ r.sections.map Section.name
    · exact h.header_of_mem hname
    · exact h.header_of_not_mem hname
  | entry key value => exact h.entry key value

theorem reads_nil : Reads [] ⟨[], none⟩ := ⟨⟨.nil, fun _ hs => (List.not_mem_nil hs).elim⟩, rfl⟩

theorem reads_foldl (statements : List Statement) :
    (statements.foldl Reader.step ⟨[], none⟩).Reads statements := by
  induction statements using List.reverseRecOn with
  | nil => exact reads_nil
  | append_singleton statements s ih =>
    rw [List.foldl_append]
    exact ih.step s

end Reader

/-! ### Main statement -/

theorem holds_ofStatements (statements : List Statement) : Holds statements (ofStatements statements) :=
  (Reader.reads_foldl statements).toHolds

theorem Holds.unique {statements : List Statement} {d d' : Document} (h : d.Holds statements)
    (h' : d'.Holds statements) : d = d' := by
  obtain ⟨ss⟩ := d
  obtain ⟨ss'⟩ := d'
  refine congrArg _ (eq_of_map_eq Section.name (h.names.unique h'.names) fun s hs u hu hname => ?_)
  obtain ⟨before, block, rest, hblock, hs⟩ := h.sections s hs
  obtain ⟨before', block', rest', hblock', hu⟩ := h'.sections u hu
  rw [← hname] at hblock'
  obtain rfl := hblock.unique hblock'
  exact hs.unique hu hname

theorem Holds.trimmed {statements : List Statement} {d : Document} (h : d.Holds statements)
    (hs : ∀ k v, .entry k v ∈ statements → Trimmed k ∧ Trimmed v) :
    ∀ s ∈ d.sections, ∀ e ∈ s.entries, Trimmed e.key ∧ ∀ v ∈ e.values, Trimmed v := by
  intro s hmem e he
  obtain ⟨before, block, rest, hblock, hgathers⟩ := h.sections s hmem
  have hall : ∀ v ∈ e.values, Trimmed e.key ∧ Trimmed v := fun v hv =>
    hs e.key v (hblock.mem_statements (hgathers.mem_block he hv))
  obtain ⟨v, hv⟩ := List.exists_mem_of_ne_nil _ (hgathers.values e he).2
  exact ⟨(hall v hv).1, fun v hv => (hall v hv).2⟩

/-- A file is read as what its lines say. The document that this describes is the only one: its sections
stand in the order of their first headers, each holds the block behind the last header of its name, and
nothing else is there. -/
theorem parse_exact (t : Text) :
    ∃ rows : List (Option Statement),
      List.Forall₂ (fun l row => ∀ s, row = some s ↔ Says l.text s) (LineRecord.ofText t) rows ∧
      (∀ d, d = parse t ↔ d.Holds (rows.filterMap id)) ∧
      ∀ s ∈ (parse t).sections, ∀ e ∈ s.entries, Trimmed e.key ∧ ∀ v ∈ e.values, Trimmed v := by
  have hparse : (parse t).Holds (((LineRecord.ofText t).map fun l => Statement.ofLine? l.text).filterMap id) := by
    rw [List.filterMap_map]
    exact holds_ofStatements _
  refine ⟨(LineRecord.ofText t).map fun l => Statement.ofLine? l.text, ?_, fun d => ?_, ?_⟩
  · rw [List.forall₂_map_right_iff, List.forall₂_same]
    exact fun l _ s => Statement.ofLine?_eq_some_iff
  · constructor
    · rintro rfl; exact hparse
    · exact fun h => h.unique hparse
  · refine hparse.trimmed fun k v hmem => ?_
    obtain ⟨row, hrow, rfl⟩ := List.mem_filterMap.1 hmem
    obtain ⟨l, -, hl⟩ := List.mem_map.1 hrow
    exact (Statement.says_of_ofLine? hl).trimmed

example : parse "[b]\nk = 1\n[]\nk = 2\n[a]\n [b]\nx = =3\nk=4\n;k=5\nx = 6".toList =
    ⟨[⟨['b'], [⟨['x'], [['=', '3'], ['6']]⟩, ⟨['k'], [['4']]⟩]⟩, ⟨[], []⟩, ⟨['a'], []⟩]⟩ := by decide

end Document

end TunnelConf
