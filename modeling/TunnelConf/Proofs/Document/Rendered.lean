import Mathlib.Data.List.Nodup
import TunnelConf.Proofs.Document.Blocks

/-!
# Documents that are written and read again

Nothing is escaped when a document is written, so what is read back depends on what lines can say at all
(`Sayable`): a key has no equals sign in it and does not begin like a comment, and a line that begins like a
header does not end like one. All values of a key on one line are of this kind again
(`Sayable.joined`). Main statement: `Document.parse_render`.
-/

namespace TunnelConf

open Text

/-! ### What lines can say -/

/-- A key and a value that are an entry of some line. -/
structure Sayable (key value : Text) : Prop where
  trimmed_key : Trimmed key
  trimmed_value : Trimmed value
  one_line : '\n' ∉ key ∧ '\n' ∉ value
  equals : '=' ∉ key
  comment : ∀ c ∈ key.head?, c ≠ '#' ∧ c ≠ ';'
  header : key.head? = some '[' → value.getLast? ≠ some ']'

namespace Sayable

variable {key value line : Text} {values : List Text}

theorem of_line (hline : '\n' ∉ line) (h : Says line (.entry key value)) : Sayable key value := by
  obtain ⟨hk, hv⟩ := h.trimmed
  obtain ⟨a, b, rfl, ha, rfl, rfl, hcomment, hheader⟩ := says_entry_iff.1 h
  simp only [List.mem_append, List.mem_cons, not_or] at hline
  exact ⟨hk, hv, ⟨mt mem_of_mem_trim hline.1, mt mem_of_mem_trim hline.2.2⟩, mt mem_of_mem_trim ha, hcomment,
    hheader⟩

/-- The written line says what it was written for, up to white space around the value. -/
theorem ofLine?_written (h : Sayable key (trim value)) :
    Statement.ofLine? (key ++ [' ', '=', ' '] ++ value) = some (.entry key (trim value)) := by
  refine Statement.ofLine?_eq_some_iff.2 (says_entry_iff.2
    ⟨key ++ [' '], ' ' :: value, by simp, ?_, ?_, ?_, h.comment, h.header⟩)
  · rw [List.mem_append, not_or]
    exact ⟨h.equals, by decide⟩
  · rw [trim_concat_of_isSpace (by decide), trim_eq_self_iff.2 h.trimmed_key]
  · exact trim_cons_of_isSpace (by decide) value

/-! ### All values on one line -/

/-- The values end like the last one of them, or with a comma if it is empty. -/
theorem getLast?_trim_intercalate (hne : values ≠ []) (hv : ∀ v ∈ values, Trimmed v ∧ v.getLast? ≠ some ']') :
    (trim (List.intercalate [',', ' '] values)).getLast? ≠ some ']' := by
  obtain ⟨ws, v, rfl⟩ := List.eq_nil_or_concat' values |>.resolve_left hne
  obtain ⟨ht, hlast⟩ := hv v (by simp)
  by_cases hws : ws = []
  · rw [hws, List.nil_append, List.intercalate_singleton, trim_eq_self_iff.2 ht]
    exact hlast
  · have hsplit : List.intercalate [',', ' '] (ws ++ [v]) =
        List.intercalate [',', ' '] ws ++ ',' :: ' ' :: v := by
      rw [intercalate_concat hws]
      simp
    rw [hsplit, getLast?_trim_append_cons (by decide), trim_cons_of_isSpace (by decide), trim_eq_self_iff.2 ht]
    cases hl : v.getLast? with
    | none => simp
    | some c => simpa [hl] using hlast

theorem joined (hne : values ≠ []) (h : ∀ v ∈ values, Sayable key v) :
    Sayable key (trim (List.intercalate [',', ' '] values)) := by
  obtain ⟨v, hv⟩ := List.exists_mem_of_ne_nil _ hne
  obtain ⟨hkey, -, ⟨hlf, -⟩, hequals, hcomment, -⟩ := h v hv
  refine ⟨hkey, trimmed_trim _, ⟨hlf, fun hmem => ?_⟩, hequals, hcomment, fun hopen => ?_⟩
  · exact not_mem_intercalate (by decide) (fun w hw => (h w hw).one_line.2) (mem_of_mem_trim hmem)
  · exact getLast?_trim_intercalate hne fun w hw => ⟨(h w hw).trimmed_value, (h w hw).header hopen⟩

end Sayable

theorem ofLine?_header_line (name : Text) :
    Statement.ofLine? ('[' :: (name ++ [']'])) = some (.header name) := by
  have ht : Trimmed ('[' :: (name ++ [']'])) := by
    refine ⟨stops_cons.2 (by decide), ?_⟩
    rw [endStops_cons (by simp), endStops_append (by simp)]
    simp [EndStops]; decide
  exact Statement.ofLine?_eq_some_iff.2 (.header (trim_eq_self_iff.2 ht))

/-! ### Sections and what is written for them -/

namespace Section

/-- A section that a file can have. -/
structure Writable (s : Section) : Prop where
  name : '\n' ∉ s.name
  nameless : s.name = [] → s.entries = []
  keys : s.keys.Nodup
  entries : ∀ e ∈ s.entries, e.values ≠ [] ∧ ∀ v ∈ e.values, Sayable e.key v

/-- What the written section says. -/
def said (s : Section) : List Statement :=
  .header s.name :: s.entries.map fun e => .entry e.key (trim e.joined)

/-- The section with one value for each key, all of its values on one line. -/
def flat (s : Section) : Section := ⟨s.name, s.entries.map fun e => ⟨e.key, [trim e.joined]⟩⟩

end Section

theorem FirstSeen.of_nodup {α : Type} [DecidableEq α] {xs : List α} (h : xs.Nodup) : FirstSeen xs xs := by
  refine ⟨h, fun _ => Iff.rfl, List.pairwise_iff_getElem.2 fun i j hi hj hij => ?_⟩
  rwa [h.idxOf_getElem, h.idxOf_getElem]

theorem given_of_nodup {block : List (Text × Text)} {key value : Text} (h : (block.map Prod.fst).Nodup)
    (hmem : (key, value) ∈ block) : given key block = [value] := by
  obtain ⟨before, after, rfl⟩ := List.append_of_mem hmem
  rw [List.map_append, List.map_cons, List.nodup_middle, List.nodup_cons, ← List.map_append] at h
  have hrest := given_eq_nil h.1
  simp only [given, List.filter_append, List.map_append, List.append_eq_nil_iff] at hrest
  simp [given, hrest.1, hrest.2]

namespace Document

/-- The sections that are read from a text. -/
theorem writable_of_mem {t : Text} {s : Section} (hs : s ∈ (parse t).sections) : s.Writable := by
  rw [parse_eq_statements] at hs
  have hholds := holds_ofStatements (statements t)
  obtain ⟨before, block, rest, hblock, hgathers⟩ := hholds.sections s hs
  refine ⟨?_, hgathers.nameless, ?_, fun e he => ⟨(hgathers.values e he).2, fun v hv => ?_⟩⟩
  · have hmem := mem_headers_iff.1 ((hholds.names.mem_iff s.name).1 (List.mem_map_of_mem hs))
    obtain ⟨line, hline, hsaid⟩ := exists_line_of_mem_statements hmem
    cases hsaid with
    | header ht =>
      exact fun hlf => hline (mem_of_mem_trim (by rw [ht]; simp [hlf]))
  · by_cases hname : s.name = []
    · rw [Section.keys, hgathers.nameless hname]; exact .nil
    · exact (hgathers.keys hname).nodup
  · have hmem := hblock.mem_statements (hgathers.mem_block he hv)
    obtain ⟨line, hline, hsaid⟩ := exists_line_of_mem_statements hmem
    exact .of_line hline hsaid

/-! ### Reading what is written -/

theorem statements_lines {lines : List Text} (h : ∀ line ∈ lines, '\n' ∉ line) (t : Text) :
    statements ((lines.flatMap fun line => line ++ ['\n']) ++ t) =
      lines.filterMap Statement.ofLine? ++ statements t := by
  induction lines with
  | nil => rfl
  | cons line lines ih =>
    obtain ⟨hline, hlines⟩ := List.forall_mem_cons.1 h
    rw [List.flatMap_cons, List.append_assoc, List.append_assoc, List.singleton_append, statements_append_lf,
      statements_of_not_mem hline, ih hlines, List.filterMap_cons]
    cases Statement.ofLine? line <;> rfl

theorem statements_render_append {s : Section} (h : s.Writable) (t : Text) :
    statements (s.render ++ t) = s.said ++ statements t := by
  have hjoined : ∀ e ∈ s.entries, Sayable e.key (trim e.joined) := fun e he =>
    .joined (h.entries e he).1 (h.entries e he).2
  have hrender : s.render = (('[' :: (s.name ++ [']'])) ::
      s.entries.map fun e => e.key ++ [' ', '=', ' '] ++ e.joined).flatMap fun line => line ++ ['\n'] := by
    simp [Section.render, List.flatMap_map]
  rw [hrender, statements_lines, List.filterMap_cons, ofLine?_header_line, List.filterMap_map, Section.said]
  · refine congrArg (· ++ statements t) (congrArg (Statement.header s.name :: ·) ?_)
    rw [← List.filterMap_eq_map]
    exact List.filterMap_congr fun e he => (hjoined e he).ofLine?_written
  · refine List.forall_mem_cons.2 ⟨by simp [h.name], List.forall_mem_map.2 fun e he => ?_⟩
    obtain ⟨hne, hvalues⟩ := h.entries e he
    have hlf : '\n' ∉ e.joined :=
      not_mem_intercalate (by decide) fun v hv => (hvalues v hv).one_line.2
    simp [(hjoined e he).one_line.1, hlf]

/-- Between two sections there is an empty line, which says nothing. -/
theorem statements_renderSections {ss : List Section} (h : ∀ s ∈ ss, s.Writable) :
    statements (renderSections ss) = ss.flatMap Section.said := by
  induction ss with
  | nil => rfl
  | cons s ss ih =>
    obtain ⟨hs, hss⟩ := List.forall_mem_cons.1 h
    have ih := ih hss
    cases ss with
    | nil =>
      have hnil : statements [] = [] := rfl
      have hrender := statements_render_append hs []
      simpa [renderSections, hnil] using hrender
    | cons u us =>
      have hempty : ∀ t, statements ('\n' :: t) = statements t := statements_append_lf []
      rw [renderSections, List.map_cons, List.map_cons, List.intercalate_cons_cons, ← List.map_cons,
        ← renderSections, List.append_assoc, statements_render_append hs, List.singleton_append, hempty, ih,
        List.flatMap_cons (x := s)]

theorem headers_flatMap_said (ss : List Section) : headers (ss.flatMap Section.said) = ss.map Section.name := by
  induction ss with
  | nil => rfl
  | cons s ss ih =>
    have hentries : (s.entries.map fun e => Statement.entry e.key (trim e.joined)).filterMap Statement.header? = [] := by
      rw [List.filterMap_map]
      exact List.filterMap_eq_nil_iff.2 fun _ _ => rfl
    rw [headers, List.flatMap_cons, List.filterMap_append, ← headers, ← headers, ih, Section.said, headers,
      List.filterMap_cons, hentries]
    rfl

theorem gathers_flat {s : Section} (h : s.Writable) :
    s.flat.Gathers (s.entries.map fun e => (e.key, trim e.joined)) := by
  have hkeys : (s.entries.map fun e => (e.key, trim e.joined)).map Prod.fst = s.keys := by
    rw [List.map_map]; rfl
  have hflat : s.flat.keys = s.keys := by
    rw [Section.keys, Section.flat, List.map_map]; rfl
  refine ⟨fun hname => ?_, fun _ => ?_, fun e he => ?_⟩
  · rw [Section.flat, h.nameless hname]; rfl
  · rw [hkeys, hflat]
    exact .of_nodup h.keys
  · obtain ⟨d, hd, rfl⟩ := List.mem_map.1 he
    have hgiven := given_of_nodup (hkeys.symm ▸ h.keys) (List.mem_map.2 ⟨d, hd, rfl⟩)
    exact ⟨hgiven.symm, by simp⟩

theorem holds_flatMap_said {ss : List Section} (hnames : (ss.map Section.name).Nodup) (h : ∀ s ∈ ss, s.Writable) :
    Holds (ss.flatMap Section.said) ⟨ss.map Section.flat⟩ := by
  have hflat : (Document.mk (ss.map Section.flat)).names = ss.map Section.name := by
    rw [names, List.map_map]; rfl
  refine ⟨?_, fun u hu => ?_⟩
  · rw [headers_flatMap_said, hflat]
    exact .of_nodup hnames
  · obtain ⟨s, hs, rfl⟩ := List.mem_map.1 hu
    obtain ⟨before, after, rfl⟩ := List.append_of_mem hs
    refine ⟨before.flatMap Section.said, _, after.flatMap Section.said, ⟨?_, ?_, ?_⟩, gathers_flat (h s hs)⟩
    · rw [List.flatMap_append, List.flatMap_cons, List.map_map]
      rfl
    · intro x hx
      cases after with
      | nil => cases hx
      | cons v after => exact ⟨v.name, (Option.some.inj hx).symm⟩
    · rw [← mem_headers_iff, headers_flatMap_said]
      rw [List.map_append, List.map_cons, List.nodup_middle, List.nodup_cons] at hnames
      exact fun hmem => hnames.1 (List.mem_append_right _ hmem)

/-! ### Main statement -/

/-- A written document is read as the sections and keys that were written, each key with all its values as
one. -/
theorem parse_render (t : Text) : parse (parse t).render = ⟨(parse t).sections.map Section.flat⟩ := by
  rw [render]
  split
  · next hempty =>
    rw [List.isEmpty_iff.1 hempty]
    decide
  · have hwritable : ∀ s ∈ (parse t).sections, s.Writable := fun s hs => writable_of_mem hs
    have hnames : ((parse t).sections.map Section.name).Nodup := by
      rw [parse_eq_statements]
      exact (holds_ofStatements (statements t)).names.nodup
    rw [parse_eq_statements (renderSections _), statements_renderSections hwritable]
    exact (holds_ofStatements _).unique (holds_flatMap_said hnames hwritable)

/-- Names and keys with brackets, empty ones, and values that are empty or hold an equals sign. -/
example : parse (parse "[a]]\n[k = ]x\n = \n = b=\n=\n[ ]\n[]\nx = 1".toList).render =
    ⟨[⟨"a]".toList, [⟨"[k".toList, ["]x".toList]⟩, ⟨[], [", b=,".toList]⟩]⟩, ⟨[' '], []⟩, ⟨[], []⟩]⟩ := by
  decide

end Document

end TunnelConf
