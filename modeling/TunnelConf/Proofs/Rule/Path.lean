import TunnelConf.Pattern.Meaning
import TunnelConf.Proofs.Pattern.Language
import TunnelConf.Rule.Path

/-!
# Accepted paths

Paths are told in three ways: by names and backslashes (`ProgramPath.Names`), by what stands between the
backslashes (`names_iff_splitWhere`), and by a pattern (`isFound_path`). Main statement: `ProgramPath.isValid_exact`,
these are the same.
-/

namespace TunnelConf

open Text Pattern

namespace ProgramPath

/-! ### Names -/

/-- Names with backslashes between them, the last of which may be empty. -/
inductive Names : Text → Prop
  | last {w : Text} (hw : ∀ c ∈ w, isReserved c = false ∧ c ≠ '\\') : Names w
  | cons {w t : Text} (hw : ∀ c ∈ w, isReserved c = false ∧ c ≠ '\\') (hne : w ≠ []) (ht : Names t) :
    Names (w ++ '\\' :: t)

variable {a b t w : Text}

theorem isNames_append_of_plain (hw : ∀ c ∈ w, isReserved c = false ∧ c ≠ '\\') (inName : Bool) (t : Text) :
    isNames inName (w ++ t) = isNames (inName || !w.isEmpty) t := by
  induction w generalizing inName with
  | nil => simp
  | cons c w ih =>
    obtain ⟨⟨hc, hne⟩, hw⟩ := List.forall_mem_cons.1 hw
    rw [List.cons_append, isNames, if_neg hne, hc, ih hw]
    simp

theorem isNames_false_iff : isNames false t = true ↔ Names t := by
  constructor
  · intro h
    -- what stands in front of the first backslash is a name, and the rest is shorter
    induction hn : t.length using Nat.strongRecOn generalizing t with
    | ind n ih =>
      obtain ⟨w, y, rfl, hw, hy⟩ := exists_run (fun c => !isReserved c && c != '\\') t
      have hplain : ∀ c ∈ w, isReserved c = false ∧ c ≠ '\\' := by
        intro c hc
        simpa using hw c hc
      rw [isNames_append_of_plain hplain] at h
      cases y with
      | nil =>
        rw [List.append_nil]
        exact .last hplain
      | cons c y =>
        have hc : isReserved c = true ∨ c = '\\' := by simpa [Decidable.or_iff_not_imp_left] using stops_cons.1 hy
        rw [isNames] at h
        split at h
        · next hslash =>
          subst hslash
          rw [Bool.and_eq_true] at h
          have hne : w ≠ [] := by
            rintro rfl
            exact absurd h.1 (by decide)
          refine .cons hplain hne (ih _ ?_ h.2 rfl)
          rw [← hn, List.length_append, List.length_cons]
          omega
        · next hslash =>
          rw [hc.resolve_right hslash] at h
          cases h
  · intro h
    induction h with
    | @last w hw => rw [← List.append_nil w, isNames_append_of_plain hw]; rfl
    | @cons w t hw hne _ ih =>
      rw [isNames_append_of_plain hw, isNames, if_pos rfl, ih]
      simpa using hne

theorem splitWhere_of_plain (hw : ∀ c ∈ w, c ≠ '\\') : splitWhere (· == '\\') w = [w] :=
  splitWhere_eq_singleton fun c hc => beq_eq_false_iff_ne.2 (hw c hc)

theorem dropLast_splitWhere_cons (hw : ∀ c ∈ w, c ≠ '\\') (t : Text) :
    (splitWhere (· == '\\') (w ++ '\\' :: t)).dropLast = w :: (splitWhere (· == '\\') t).dropLast := by
  rw [splitWhere_append_cons (p := (· == '\\')) rfl, splitWhere_of_plain hw, List.singleton_append,
    List.dropLast_cons_of_ne_nil (splitWhere_ne_nil _ t)]

/-- Between backslashes only the last name is empty. -/
theorem names_iff_splitWhere :
    Names t ↔ (∀ c ∈ t, isReserved c = false) ∧ ∀ s ∈ (splitWhere (· == '\\') t).dropLast, s ≠ [] := by
  constructor
  · intro h
    induction h with
    | @last w hw =>
      rw [splitWhere_of_plain fun c hc => (hw c hc).2]
      exact ⟨fun c hc => (hw c hc).1, nofun⟩
    | @cons w t hw hne _ ih =>
      rw [dropLast_splitWhere_cons fun c hc => (hw c hc).2]
      refine ⟨?_, List.forall_mem_cons.2 ⟨hne, ih.2⟩⟩
      intro c hc
      rcases List.mem_append.1 hc with hc | hc
      · exact (hw c hc).1
      · rcases List.mem_cons.1 hc with rfl | hc
        · rfl
        · exact ih.1 c hc
  · rintro ⟨hres, hsegs⟩
    induction hn : t.length using Nat.strongRecOn generalizing t with
    | ind n ih =>
      obtain ⟨w, y, rfl, hw, hy⟩ := exists_run (fun c => c != '\\') t
      have hwp : ∀ c ∈ w, isReserved c = false ∧ c ≠ '\\' :=
        fun c hc => ⟨hres c (List.mem_append_left _ hc), by simpa using hw c hc⟩
      cases y with
      | nil =>
        rw [List.append_nil]
        exact .last hwp
      | cons c y =>
        obtain rfl : c = '\\' := by simpa using stops_cons.1 hy
        rw [dropLast_splitWhere_cons fun c hc => (hwp c hc).2] at hsegs
        obtain ⟨hne, hsegs⟩ := List.forall_mem_cons.1 hsegs
        refine .cons hwp hne (ih _ ?_ (fun c hc => hres c (by simp [hc])) hsegs rfl)
        rw [← hn, List.length_append, List.length_cons]
        omega

/-- What stands in front of a backslash and what stands behind it are told apart. -/
theorem names_append_iff : Names (a ++ '\\' :: b) ↔ Names (a ++ ['\\']) ∧ Names b := by
  have hsplit : ∀ t : Text, (splitWhere (· == '\\') (a ++ '\\' :: t)).dropLast =
      splitWhere (· == '\\') a ++ (splitWhere (· == '\\') t).dropLast := by
    intro t
    rw [splitWhere_append_cons (p := (· == '\\')) rfl, List.dropLast_append_of_ne_nil (splitWhere_ne_nil _ t)]
  have hnil : (splitWhere (· == '\\') []).dropLast = [] := rfl
  simp only [names_iff_splitWhere, hsplit, hnil, List.mem_append, List.mem_cons, List.not_mem_nil, or_false]
  constructor
  · rintro ⟨hres, hsegs⟩
    exact ⟨⟨fun c hc => hres c (by tauto), fun s hs => hsegs s (.inl hs)⟩, fun c hc => hres c (by tauto),
      fun s hs => hsegs s (.inr hs)⟩
  · rintro ⟨⟨hresa, ha⟩, hresb, hb⟩
    refine ⟨?_, fun s hs => hs.elim (ha s) (hb s)⟩
    rintro c (hc | hc | hc)
    · exact hresa c (.inl hc)
    · exact hresa c (.inr hc)
    · exact hresb c hc

theorem not_names_cons : ¬ Names ('\\' :: t) := by
  intro h
  have hnames := isNames_false_iff.2 h
  rw [isNames, if_pos rfl, Bool.false_and] at hnames
  cases hnames

/-! ### Drives -/

/-- A letter, a colon and a backslash. -/
def IsDrive (d : Text) : Prop := ∃ c, ('A' ≤ c ∧ c ≤ 'Z' ∨ 'a' ≤ c ∧ c ≤ 'z') ∧ d = [c, ':', '\\']

theorem isLetter_iff {c : Char} : isLetter c = true ↔ 'A' ≤ c ∧ c ≤ 'Z' ∨ 'a' ≤ c ∧ c ≤ 'z' := by
  have hcapital : ¬ ('A' ≤ c ∧ c ≤ '9') := fun h => absurd (Char.le_trans h.1 h.2) (by decide : ¬ 'A' ≤ '9')
  have hsmall : ¬ ('a' ≤ c ∧ c ≤ '9') := fun h => absurd (Char.le_trans h.1 h.2) (by decide : ¬ 'a' ≤ '9')
  simp only [isLetter, isAlphanumeric, isDigit, Bool.and_eq_true, Bool.or_eq_true, decide_eq_true_eq,
    Bool.not_eq_true', Bool.and_eq_false_iff, decide_eq_false_iff_not]
  tauto

theorem dropDrive_append {d : Text} (h : IsDrive d) (t : Text) : dropDrive (d ++ t) = t := by
  obtain ⟨c, hc, rfl⟩ := h
  show (if isLetter c then t else _) = t
  rw [if_pos (isLetter_iff.2 hc)]

theorem dropDrive_of_not (h : ∀ d r, IsDrive d → t ≠ d ++ r) : dropDrive t = t := by
  rw [dropDrive.eq_def]
  split
  · next c r =>
    split
    · next hc => exact absurd rfl (h _ r ⟨c, isLetter_iff.1 hc, rfl⟩)
    · rfl
  · rfl

theorem Names.colon_not_mem (h : Names t) : ':' ∉ t := by
  intro hc
  have := (names_iff_splitWhere.1 h).1 _ hc
  cases this

/-- Whether a path starts with a drive or not is told by the path. -/
theorem isValid_iff : isValid t = true ↔ ∃ d r, t = d ++ r ∧ (d = [] ∨ IsDrive d) ∧ Names r := by
  rw [isValid, isNames_false_iff]
  constructor
  · intro h
    by_cases hd : ∃ d r, IsDrive d ∧ t = d ++ r
    · obtain ⟨d, r, hd, rfl⟩ := hd
      rw [dropDrive_append hd] at h
      exact ⟨d, r, rfl, .inr hd, h⟩
    · rw [dropDrive_of_not fun d r hdrive ht => hd ⟨d, r, hdrive, ht⟩] at h
      exact ⟨[], t, rfl, .inl rfl, h⟩
  · rintro ⟨d, r, rfl, rfl | hd, h⟩
    · rw [List.nil_append, dropDrive_of_not]
      · exact h
      · rintro _ r ⟨c, -, rfl⟩ rfl
        exact h.colon_not_mem (by simp)
    · rwa [dropDrive_append hd]

/-! ### The pattern -/

/-- A drive or none, then names with a backslash behind each, then what has none. -/
def grammar : Text :=
  "^(?:[a-zA-Z]:\\\\)?(?:[^<>:\"/\\\\|?*\\n\\r]+\\\\)*[^<>:\"/\\\\|?*\\n\\r]*$".toList

def letter : CharClass := .bracketed false (.union [.range 'a' 'z', .range 'A' 'Z'])

def plain : CharClass :=
  .bracketed true (.union (['<', '>', ':', '"', '/', '\\', '|', '?', '*', '\n', '\r'].map .char))

def drive : Pattern :=
  .group none (.sequence (one letter) (.sequence (one (only ':')) (.sequence (one (only '\\')) .empty)))

def folder : Pattern :=
  .group none (.sequence (.repeated .oneOrMore true (one plain)) (.sequence (one (only '\\')) .empty))

def names : Pattern :=
  .sequence (.repeated .zeroOrMore true folder)
    (.sequence (.repeated .zeroOrMore true (one plain)) (.sequence (.look .textEnd) .empty))

def path : Pattern := .sequence (.look .textStart) (.sequence (.repeated .zeroOrOne true drive) names)

set_option maxRecDepth 20000 in
theorem ofText?_grammar : Pattern.ofText? grammar = some path := by rfl

theorem admits_letter {c : Char} : letter.admits false c = true ↔ 'A' ≤ c ∧ c ≤ 'Z' ∨ 'a' ≤ c ∧ c ≤ 'z' := by
  simp [letter, CharClass.admits, CharClass.anyAdmits, CharClass.upToCase, or_comm]

theorem anyAdmits_chars (cs : Text) (c : Char) : CharClass.anyAdmits false (cs.map .char) c = cs.contains c := by
  induction cs with
  | nil => rfl
  | cons d cs ih =>
    rw [List.map_cons, CharClass.anyAdmits, ih, List.contains_cons]
    rfl

theorem admits_plain {c : Char} : plain.admits false c = true ↔ isReserved c = false ∧ c ≠ '\\' := by
  have hcase : ∀ p, CharClass.upToCase false p c = p c := fun p => if_neg Bool.false_ne_true
  simp only [plain, CharClass.admits, hcase, anyAdmits_chars, isReserved, bne_iff_ne, ne_eq, Bool.not_eq_true,
    List.contains_eq_mem, decide_eq_false_iff_not, List.mem_cons, List.not_mem_nil, or_false]
  tauto

theorem matches_only_iff {c : Char} {u : Text} : (one (only c)).Matches a u b ↔ u = [c] := by
  rw [matches_one_iff]
  simp [admits_only]

theorem matches_drive_iff {u : Text} : drive.Matches a u b ↔ IsDrive u := by
  constructor
  · rintro ⟨x, _, rfl, hx, y, z, rfl, hy, hz⟩
    obtain ⟨c, rfl, hc⟩ := matches_one_iff.1 hx
    obtain rfl := matches_only_iff.1 hy
    obtain rfl := matches_only_iff.1 (matches_sequence_empty_iff.1 hz)
    exact ⟨c, admits_letter.1 hc, rfl⟩
  · rintro ⟨c, hc, rfl⟩
    refine ⟨[c], [':', '\\'], rfl, matches_one_iff.2 ⟨c, rfl, admits_letter.2 hc⟩, [':'], ['\\'], rfl, ?_, ?_⟩
    · exact matches_only_iff.2 rfl
    · exact matches_sequence_empty_iff.2 (matches_only_iff.2 rfl)

theorem matches_folder_iff {u : Text} : folder.Matches a u b ↔
    ∃ w, u = w ++ ['\\'] ∧ w ≠ [] ∧ ∀ c ∈ w, isReserved c = false ∧ c ≠ '\\' := by
  constructor
  · rintro ⟨w, y, rfl, hrun, hy⟩
    obtain ⟨hne, hw⟩ := runs_one_iff.1 hrun
    obtain rfl := matches_only_iff.1 (matches_sequence_empty_iff.1 hy)
    exact ⟨w, rfl, hne, fun c hc => admits_plain.1 (hw c hc)⟩
  · rintro ⟨w, rfl, hne, hw⟩
    refine ⟨w, ['\\'], rfl, runs_one_iff.2 ⟨hne, fun c hc => admits_plain.2 (hw c hc)⟩, ?_⟩
    exact matches_sequence_empty_iff.2 (matches_only_iff.2 rfl)

theorem names_append_of_runs {u : Text} (h : Runs folder.Matches a u b) (ht : Names t) : Names (u ++ t) := by
  induction h with
  | one h =>
    obtain ⟨w, rfl, hne, hw⟩ := matches_folder_iff.1 h
    rw [List.append_assoc]
    exact .cons hw hne ht
  | cons h _ ih =>
    obtain ⟨w, rfl, hne, hw⟩ := matches_folder_iff.1 h
    rw [List.append_assoc, List.append_assoc]
    exact .cons hw hne ih

theorem Names.exists_runs (h : Names t) (a b : Text) : ∃ u w, t = u ++ w ∧
    (u = [] ∨ Runs folder.Matches a u (w ++ b)) ∧ ∀ c ∈ w, isReserved c = false ∧ c ≠ '\\' := by
  induction h generalizing a with
  | @last w hw => exact ⟨[], w, rfl, .inl rfl, hw⟩
  | @cons x t hx hne _ ih =>
    obtain ⟨u, w, rfl, hu, hw⟩ := ih (a ++ (x ++ ['\\']))
    have hfirst : ∀ b, folder.Matches a (x ++ ['\\']) b := fun b => matches_folder_iff.2 ⟨x, rfl, hne, hx⟩
    refine ⟨x ++ ['\\'] ++ u, w, by simp, .inr ?_, hw⟩
    rcases hu with rfl | hu
    · rw [List.append_nil]
      exact .one (hfirst _)
    · exact .cons (hfirst _) hu

theorem holds_textEnd_iff : Look.holds (Spot.between a b) .textEnd = true ↔ b = [] := by
  cases b with
  | nil => exact iff_of_true rfl rfl
  | cons c b =>
    obtain ⟨x, xs, -, hc⟩ := Cell.exists_ofChar c
    rw [Look.holds, Spot.between, Cell.ofText_cons, hc]
    exact iff_of_false Bool.false_ne_true (List.cons_ne_nil c b)

theorem matches_names_iff {u : Text} : names.Matches a u b ↔ Names u ∧ b = [] := by
  constructor
  · rintro ⟨x, _, rfl, hx, w, y, rfl, hw, hlook⟩
    obtain ⟨rfl, hholds⟩ := matches_sequence_empty_iff.1 hlook
    have hend := holds_textEnd_iff.1 hholds
    have hplain : ∀ c ∈ w, isReserved c = false ∧ c ≠ '\\' := by
      rcases hw with rfl | hw
      · exact nofun
      · exact fun c hc => admits_plain.1 ((runs_one_iff.1 hw).2 c hc)
    rw [List.append_nil]
    rcases hx with rfl | hx
    · exact ⟨.last hplain, hend⟩
    · exact ⟨names_append_of_runs hx (.last hplain), hend⟩
  · rintro ⟨h, rfl⟩
    obtain ⟨x, w, rfl, hx, hw⟩ := h.exists_runs a []
    refine ⟨x, w, rfl, hx, w, [], by rw [List.append_nil], ?_, ?_⟩
    · by_cases hne : w = []
      · exact .inl hne
      · exact .inr (runs_one_iff.2 ⟨hne, fun c hc => admits_plain.2 (hw c hc)⟩)
    · exact matches_sequence_empty_iff.2 ⟨rfl, holds_textEnd_iff.2 rfl⟩

theorem isFound_path (t : Text) : path.isFound t = isValid t := by
  rw [Bool.eq_iff_iff, path, isFound_textStart_iff, isValid_iff]
  constructor
  · rintro ⟨_, b, rfl, d, r, rfl, hd, hrest⟩
    obtain ⟨hr, rfl⟩ := matches_names_iff.1 hrest
    exact ⟨d, r, by rw [List.append_nil], hd.imp_right matches_drive_iff.1, hr⟩
  · rintro ⟨d, r, rfl, hd, hr⟩
    refine ⟨d ++ r, [], by rw [List.append_nil], d, r, rfl, ?_, matches_names_iff.2 ⟨hr, rfl⟩⟩
    exact hd.imp_right matches_drive_iff.2

/-! ### Paths put together -/

/-- The first backslash of a path with a drive is that of the drive. -/
theorem IsDrive.of_append_eq {d r : Text} (hd : IsDrive d) (h : a ++ '\\' :: b = d ++ r) :
    (∃ x, a = d ++ x ∧ r = x ++ '\\' :: b) ∨ d = a ++ ['\\'] ∧ r = b := by
  obtain ⟨c, hc, rfl⟩ := hd
  match a, h with
  | [], h =>
    obtain ⟨rfl, -⟩ := List.cons.inj h
    exact absurd hc (by decide)
  | [_], h => exact absurd (List.cons.inj (List.cons.inj h).2).1 (by decide)
  | [_, _], h =>
    simp only [List.cons_append, List.nil_append, List.cons.injEq, true_and] at h
    obtain ⟨rfl, rfl, rfl⟩ := h
    exact .inr ⟨rfl, rfl⟩
  | _ :: _ :: _ :: x, h =>
    simp only [List.cons_append, List.nil_append, List.cons.injEq] at h
    obtain ⟨rfl, rfl, rfl, rfl⟩ := h
    exact .inl ⟨x, rfl, rfl⟩

/-- A path up to a backslash and what stands behind it are told apart. -/
theorem isValid_append_iff : isValid (a ++ '\\' :: b) = true ↔ isValid (a ++ ['\\']) = true ∧ Names b := by
  simp only [isValid_iff]
  constructor
  · rintro ⟨d, r, ht, rfl | hd, hr⟩
    · obtain rfl : a ++ '\\' :: b = r := ht
      obtain ⟨ha, hb⟩ := names_append_iff.1 hr
      exact ⟨⟨[], _, rfl, .inl rfl, ha⟩, hb⟩
    · rcases hd.of_append_eq ht with ⟨x, rfl, rfl⟩ | ⟨rfl, rfl⟩
      · obtain ⟨hx, hb⟩ := names_append_iff.1 hr
        exact ⟨⟨d, _, List.append_assoc .., .inr hd, hx⟩, hb⟩
      · exact ⟨⟨_, [], by rw [List.append_nil], .inr hd, .last nofun⟩, hr⟩
  · rintro ⟨⟨d, r, ht, rfl | hd, hr⟩, hb⟩
    · obtain rfl : a ++ ['\\'] = r := ht
      exact ⟨[], _, rfl, .inl rfl, names_append_iff.2 ⟨hr, hb⟩⟩
    · rcases hd.of_append_eq ht with ⟨x, rfl, rfl⟩ | ⟨rfl, rfl⟩
      · exact ⟨d, _, List.append_assoc .., .inr hd, names_append_iff.2 ⟨hr, hb⟩⟩
      · exact ⟨_, b, by simp, .inr hd, hb⟩

/-! ### Main statement -/

/-- A path without line breaks is accepted just if, behind a drive if there is one, it holds no reserved character and
between its backslashes only the last name is empty. Accepted paths are those that follow the pattern. They can be put
together, and none has two backslashes side by side. -/
theorem isValid_exact :
    (∃ p, Pattern.ofText? grammar = some p ∧ ∀ t, p.isFound t = isValid t) ∧
    (∀ t, '\r' ∉ t → '\n' ∉ t → (isValid t = true ↔ ∃ d r, t = d ++ r ∧ (d = [] ∨ IsDrive d) ∧
      (∀ c ∈ r, c ∉ ['<', '>', ':', '"', '/', '|', '?', '*']) ∧
      ∀ s ∈ (splitWhere (· == '\\') r).dropLast, s ≠ [])) ∧
    (∀ a b, isValid (a ++ ['\\']) = true → isValid b = true → (∀ d r, IsDrive d → b ≠ d ++ r) →
      isValid (a ++ ['\\'] ++ b) = true) ∧
    ∀ a b, isValid (a ++ '\\' :: '\\' :: b) = false := by
  refine ⟨⟨path, ofText?_grammar, isFound_path⟩, ?_, ?_, ?_⟩
  · intro t hcr hlf
    have hreserved : ∀ c ∈ t, isReserved c = false ↔ c ∉ ['<', '>', ':', '"', '/', '|', '?', '*'] := by
      intro c hc
      have hne : c ≠ '\r' ∧ c ≠ '\n' := ⟨fun h => hcr (h ▸ hc), fun h => hlf (h ▸ hc)⟩
      simp [isReserved, hne]
    rw [isValid_iff]
    refine exists_congr fun d => exists_congr fun r => and_congr_right ?_
    rintro rfl
    rw [names_iff_splitWhere]
    refine and_congr_right fun _ => and_congr_left fun _ => forall₂_congr fun c hc => ?_
    exact hreserved c (List.mem_append_right d hc)
  · intro a b ha hb hno
    rw [List.append_assoc]
    refine isValid_append_iff.2 ⟨ha, ?_⟩
    obtain ⟨d, r, rfl, rfl | hd, hr⟩ := isValid_iff.1 hb
    · exact hr
    · exact absurd rfl (hno d r hd)
  · intro a b
    rw [Bool.eq_false_iff]
    intro h
    exact not_names_cons (isValid_append_iff.1 h).2

end ProgramPath

end TunnelConf
