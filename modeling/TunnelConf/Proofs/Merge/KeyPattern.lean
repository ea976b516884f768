import TunnelConf.Pattern.Meaning
import TunnelConf.Proofs.Merge.KeyLine
import TunnelConf.Proofs.Scan.LinePattern

/-!
# The pattern of a key

Merging looks for a key with a pattern that is written for its name. The name stands in it letter by letter, in any
letter case (`mem_caseVariants_iff`). Main statement: `ofText?_keyGrammar`, what the pattern of a key is.
-/

namespace TunnelConf

open Text Pattern

/-! ### Letter case -/

theorem CaseRange.le_of_contains {r : CaseRange} {n : Nat} (h : r.contains n = true) : r.first ≤ n ∧ n ≤ r.last := by
  simp only [contains, Bool.and_eq_true, decide_eq_true_eq] at h
  exact h.1

namespace Text

theorem toNat_ofNat {n : Nat} (h : n.isValidChar) : (Char.ofNat n).toNat = n := by
  rw [Char.ofNat, dif_pos h]
  rfl

theorem toNat_lowerChar (c : Char) :
    (lowerChar c).toNat = if 65 ≤ c.toNat ∧ c.toNat ≤ 90 then c.toNat + 32 else c.toNat := by
  have hupper : ((decide ('A' ≤ c)) && (decide (c ≤ 'Z'))) = true ↔ 65 ≤ c.toNat ∧ c.toNat ≤ 90 := by
    simp only [Bool.and_eq_true, decide_eq_true_eq, Char.le_def, UInt32.le_iff_toNat_le]
    exact Iff.rfl
  rw [lowerChar]
  by_cases h : 65 ≤ c.toNat ∧ c.toNat ≤ 90
  · have hvalid : (c.toNat + 32).isValidChar := .inl (by omega)
    rw [if_pos (hupper.2 h), if_pos h, toNat_ofNat hvalid]
  · rw [if_neg (mt hupper.1 h), if_neg h]

theorem ofNat_eq_iff {k : Char} (hk : k.toNat ≠ 0) {n : Nat} : Char.ofNat n = k ↔ n = k.toNat := by
  constructor
  · rintro rfl
    by_cases h : n.isValidChar
    · exact (toNat_ofNat h).symm
    · rw [Char.ofNat, dif_neg h] at hk
      exact absurd rfl hk
  · rintro rfl
    exact Char.ofNat_toNat k

/-- The ranges of the characters that are case variants of ASCII characters. -/
def asciiCaseRanges : List CaseRange :=
  [⟨0x41, 0x5A, 1, 32⟩, ⟨0x17F, 0x17F, 1, -268⟩, ⟨0x212A, 0x212A, 1, -8383⟩]

/-- All other ranges lie beyond ASCII, and so does what they are taken to. -/
theorem caseRange_cases : ∀ r ∈ caseRanges,
    r ∈ asciiCaseRanges ∨ 128 ≤ r.first ∧ 128 ≤ (r.first : Int) + r.offset := by
  decide +kernel

/-- Only small letters are what ASCII characters are taken to. -/
theorem exists_source?_iff {n m : Nat} (hm : m < 128) :
    (∃ r ∈ caseRanges, r.source? n = some m) ↔ (65 ≤ m ∧ m ≤ 90) ∧ n = m + 32 := by
  constructor
  · rintro ⟨r, hr, hs⟩
    rw [CaseRange.source?] at hs
    obtain ⟨hcontains, hm'⟩ := Option.ite_none_right_eq_some.1 hs
    have hsource : ((n : Int) - r.offset).toNat = m := Option.some.inj hm'
    rw [hsource] at hcontains
    have hbounds := CaseRange.le_of_contains hcontains
    rcases caseRange_cases r hr with hr | ⟨hfirst, -⟩
    · simp only [asciiCaseRanges, List.mem_cons, List.not_mem_nil, or_false] at hr
      rcases hr with rfl | rfl | rfl
      · simp only at hbounds hsource
        omega
      · simp only at hbounds
        omega
      · simp only at hbounds
        omega
    · omega
  · rintro ⟨hupper, rfl⟩
    refine ⟨⟨0x41, 0x5A, 1, 32⟩, by decide +kernel, ?_⟩
    have hsource : ((m + 32 : Nat) - (32 : Int)).toNat = m := by omega
    rw [CaseRange.source?, hsource]
    simp [CaseRange.contains, hupper, Nat.mod_one]

end Text

namespace KeyName

/-- Up to case a character is the same to a pattern as to a name, as far as ASCII goes. -/
theorem foldCase_cases (c : Char) : foldCase c = (fold c).toNat ∨ 128 ≤ foldCase c ∧ 128 ≤ (fold c).toNat := by
  by_cases hk : c = '\u212a'
  · subst hk
    exact .inl (by decide +kernel)
  by_cases hs : c = '\u017f'
  · subst hs
    exact .inl (by decide +kernel)
  have hfold : (fold c).toNat = if 65 ≤ c.toNat ∧ c.toNat ≤ 90 then c.toNat + 32 else c.toNat := by
    rw [fold, if_neg hk, if_neg hs, toNat_lowerChar]
  have hk : c.toNat ≠ 0x212A := fun h => hk (Char.toNat_inj.1 h)
  have hs : c.toNat ≠ 0x17F := fun h => hs (Char.toNat_inj.1 h)
  rw [foldCase, hfold]
  cases hr : caseRanges.find? (·.contains c.toNat) with
  | none =>
    have hupper : ¬ (65 ≤ c.toNat ∧ c.toNat ≤ 90) := by
      intro h
      refine List.find?_eq_none.1 hr ⟨0x41, 0x5A, 1, 32⟩ (by decide +kernel) ?_
      simp [CaseRange.contains, h, Nat.mod_one]
    exact .inl (if_neg hupper).symm
  | some r =>
    have hbounds : r.first ≤ c.toNat ∧ c.toNat ≤ r.last :=
      CaseRange.le_of_contains (List.find?_some (p := fun r : CaseRange => r.contains c.toNat) hr)
    rcases caseRange_cases r (List.mem_of_find?_eq_some hr) with hr | ⟨hfirst, himage⟩
    · simp only [asciiCaseRanges, List.mem_cons, List.not_mem_nil, or_false] at hr
      rcases hr with rfl | rfl | rfl
      · left
        rw [if_pos hbounds]
        simp only
        omega
      · simp only at hbounds
        omega
      · simp only at hbounds
        omega
    · right
      simp only
      split_ifs <;> omega

theorem not_isUpper_fold (c : Char) : ¬ (65 ≤ (fold c).toNat ∧ (fold c).toNat ≤ 90) := by
  rw [fold]
  split
  · decide
  · split
    · decide
    · rw [toNat_lowerChar]
      split_ifs <;> omega

/-- To look past case is to a pattern what it is to a name. -/
theorem mem_caseVariants_iff {k c : Char} (hk : isAlphanumeric k = true) : k ∈ caseVariants c ↔ fold k = fold c := by
  have hlt := toNat_lt_of_isAlphanumeric hk
  have hfold : (fold k).toNat = if 65 ≤ k.toNat ∧ k.toNat ≤ 90 then k.toNat + 32 else k.toNat := by
    rw [fold_of_lt hlt, toNat_lowerChar]
  have hpos : k.toNat ≠ 0 := by
    intro h0
    rw [Char.toNat_inj (d := '\x00').1 h0] at hk
    exact absurd hk (by decide)
  have hmem : k ∈ caseVariants c ↔
      foldCase c = k.toNat ∨ ∃ r ∈ caseRanges, r.source? (foldCase c) = some k.toNat := by
    simp only [caseVariants, List.mem_map, ofNat_eq_iff hpos, exists_eq_right, List.mem_cons, List.mem_filterMap,
      eq_comm]
  rw [hmem, exists_source?_iff hlt, ← Char.toNat_inj, hfold]
  have hupper := not_isUpper_fold c
  rcases foldCase_cases c with h | ⟨h, h'⟩
  · rw [h]
    split_ifs <;> omega
  · split_ifs <;> omega

end KeyName

/-! ### The pattern of a name -/

/-- The start of a line, and that of a comment if there is one. -/
def grammarBefore : Text := "(?mR)^[ \\t]*(?P<comment>[;#].*?)?(?i:".toList

/-- The rest of a line behind a name. What may be written over is in a group with a name. -/
def grammarBehind : Text :=
  "(?:(?P<bare>[ \\t]*)$|[ \\t]*=(?P<assigned>.*?)$|[ \\t]+(?P<loose>.*?)$)".toList

/-- A line of a key. -/
def keyGrammar (key : Text) : Text := grammarBefore ++ key ++ ')' :: grammarBehind

namespace PatternReader

/-- A letter or digit of a pattern stands for itself. -/
theorem readBranches_alphanumeric {c : Char} (hc : isAlphanumeric c = true) (fuel : Nat)
    (branches parts : List PatternTree) (t : Text) : readBranches (fuel + 1) false branches parts (c :: t) =
      readBranches fuel false branches (.char c false :: parts) t := by
  have hne : ∀ d, isAlphanumeric d = false → c ≠ d := fun d hd h => by rw [h, hd] at hc; cases hc
  have hrep : Repetition.ofChar? c = none := by
    rw [Repetition.ofChar?]
    · exact hne _ (by decide)
    · exact hne _ (by decide)
    · exact hne _ (by decide)
  have hpiece : readPiece false (c :: t) = some (.char c false, t) := by
    rw [readPiece]
    · exact hne _ (by decide)
    · exact hne _ (by decide)
    · exact hne _ (by decide)
    · exact hne _ (by decide)
  have hskip : skip false (c :: t) = c :: t := rfl
  rw [readBranches]
  simp only [hskip]
  split
  · next h => cases h
  · next h => exact absurd (List.cons.inj h).1 (hne _ (by decide))
  · next h => exact absurd (List.cons.inj h).1 (hne _ (by decide))
  · next h => exact absurd (List.cons.inj h).1 (hne _ (by decide))
  · next h => exact absurd (List.cons.inj h).1 (hne _ (by decide))
  · next h => exact absurd (List.cons.inj h).1 (hne _ (by decide))
  · next h =>
    obtain ⟨rfl, rfl⟩ := List.cons.inj h
    simp only [hrep, hpiece]
    rfl

/-- A name in parentheses is read letter by letter. -/
theorem readBranches_name {key : Text} (hkey : ∀ c ∈ key, isAlphanumeric c = true) (fuel : Nat)
    (parts : List PatternTree) (t : Text) :
    readBranches (fuel + key.length + 1) false [] parts (key ++ ')' :: t) =
      some (.ofParts (parts.reverse ++ key.map fun c => .char c false), ')' :: t) := by
  induction key generalizing parts with
  | nil =>
    rw [List.map_nil, List.append_nil]
    rfl
  | cons c key ih =>
    obtain ⟨hc, hkey⟩ := List.forall_mem_cons.1 hkey
    have hfuel : fuel + (c :: key).length + 1 = fuel + key.length + 1 + 1 := by rw [List.length_cons]; omega
    rw [List.cons_append, hfuel, readBranches_alphanumeric hc, ih hkey]
    simp

end PatternReader

namespace KeyPattern

/-- What stands in front of the name. -/
def treesBefore : List PatternTree :=
  [.switches [(.multiLine, true), (.carriageReturn, true)], .anchor .lineStart,
    .repeated .zeroOrMore true (.oneOf LinePattern.blank),
    .repeated .zeroOrOne true (.group (some "comment".toList) []
      (.sequence [.oneOf LinePattern.marker, .repeated .zeroOrMore false .point]))]

def nameTree (key : Text) : PatternTree := .ofParts (key.map fun c => .char c false)

def treeBehind : PatternTree :=
  .group none [] (.choice [
    .sequence [.group (some "bare".toList) [] (.repeated .zeroOrMore true (.oneOf LinePattern.blank)),
      .anchor .lineEnd],
    .sequence [.repeated .zeroOrMore true (.oneOf LinePattern.blank), .char '=' false,
      .group (some "assigned".toList) [] (.repeated .zeroOrMore false .point), .anchor .lineEnd],
    .sequence [.repeated .oneOrMore true (.oneOf LinePattern.blank),
      .group (some "loose".toList) [] (.repeated .zeroOrMore false .point), .anchor .lineEnd]])

def tree (key : Text) : PatternTree :=
  .sequence (treesBefore ++ [.group none [(.ignoreCase, true)] (nameTree key), treeBehind])

open PatternReader

set_option maxRecDepth 20000 in
theorem readBranches_before (fuel : Nat) (t : Text) :
    readBranches (fuel + 20) false [] [] (grammarBefore ++ t) =
      (do
        match ← readBranches (fuel + 13) false [] [] t with
        | (inner, ')' :: t) =>
          readBranches (fuel + 13) false [] (.group none [(.ignoreCase, true)] inner :: treesBefore.reverse) t
        | _ => none) := by
  rfl

set_option maxRecDepth 20000 in
theorem readBranches_behind (fuel : Nat) (parts : List PatternTree) :
    readBranches (fuel + 60) false [] parts grammarBehind = some (.ofParts (treeBehind :: parts).reverse, []) := by
  rfl

variable {key : Text}

theorem length_grammarBefore : grammarBefore.length = 37 := by decide

theorem length_grammarBehind : grammarBehind.length = 69 := by decide

theorem readBranches_keyGrammar (hkey : ∀ c ∈ key, isAlphanumeric c = true) :
    readBranches ((keyGrammar key).length + 1) false [] [] (keyGrammar key) = some (tree key, []) := by
  have hlength : (keyGrammar key).length + 1 = key.length + 88 + 20 := by
    rw [keyGrammar, List.length_append, List.length_append, List.length_cons, length_grammarBefore,
      length_grammarBehind]
    omega
  have hname : key.length + 88 + 13 = 100 + key.length + 1 := by omega
  have hbehind : key.length + 88 + 13 = key.length + 41 + 60 := rfl
  rw [hlength, keyGrammar, List.append_assoc, readBranches_before, hname, readBranches_name hkey, ← hname, hbehind]
  simp only [Option.bind_eq_bind, Option.bind_some, readBranches_behind]
  rfl

theorem depth_nameTree (key : Text) : (nameTree key).depth ≤ 1 ∧ (nameTree key).names = [] := by
  have hparts : PatternTree.maxDepth (key.map fun c => .char c false) = 0 ∧
      PatternTree.allNames (key.map fun c => .char c false) = [] := by
    induction key with
    | nil => exact ⟨rfl, rfl⟩
    | cons c key ih => simp [PatternTree.maxDepth, PatternTree.allNames, PatternTree.depth, PatternTree.names, ih]
  cases key with
  | nil => exact ⟨Nat.zero_le _, rfl⟩
  | cons c key =>
    cases key with
    | nil => exact ⟨Nat.zero_le _, rfl⟩
    | cons d key => exact ⟨Nat.succ_le_succ hparts.1.le, hparts.2⟩

theorem ofText?_tree (hkey : ∀ c ∈ key, isAlphanumeric c = true) :
    PatternTree.ofText? (keyGrammar key) = some (tree key) := by
  obtain ⟨hdepth, hnames⟩ := depth_nameTree key
  have hlimit : (tree key).depth ≤ PatternTree.depthLimit := by
    have hblank : LinePattern.blank.depth = 2 := rfl
    have hmarker : LinePattern.marker.depth = 2 := rfl
    simp only [tree, treesBefore, treeBehind, List.cons_append, List.nil_append, PatternTree.depth,
      PatternTree.maxDepth, PatternTree.depthLimit, hblank, hmarker]
    omega
  have hnodup : (tree key).names.Nodup := by
    simp [tree, treesBefore, treeBehind, PatternTree.names, PatternTree.allNames, hnames]
  rw [PatternTree.ofText?, readBranches_keyGrammar hkey]
  simp [hlimit, hnodup]

/-! ### What it means -/

def comment : Pattern :=
  .group (some "comment".toList) (.sequence (one LinePattern.marker)
    (.sequence (.repeated .zeroOrMore false (one LinePattern.inLine)) .empty))

/-- A letter, in any letter case. -/
def letter (c : Char) : Pattern := .oneOf (only c) true false

def letters : Text → Pattern
  | [] => .empty
  | c :: key => .sequence (letter c) (letters key)

/-- One letter behind the other; a single one stands by itself. -/
def name : Text → Pattern
  | [c] => letter c
  | key => letters key

def value : Pattern := .repeated .zeroOrMore false (one LinePattern.inLine)

def lineEnd : Pattern := .sequence (.look .anyLineEnd) .empty

def bare : Pattern := .sequence (.group (some "bare".toList) LinePattern.blanks) lineEnd

def assigned : Pattern :=
  .sequence LinePattern.blanks (.sequence (one (only '='))
    (.sequence (.group (some "assigned".toList) value) lineEnd))

def loose : Pattern :=
  .sequence (.repeated .oneOrMore true (one LinePattern.blank)) (.sequence (.group (some "loose".toList) value) lineEnd)

def behind : Pattern := .group none (.choice bare (.choice assigned loose))

def named (key : Text) : Pattern := .sequence (.group none (name key)) (.sequence behind .empty)

/-- What stands behind the blanks at the start of a line. -/
def body (key : Text) : Pattern := .sequence (.repeated .zeroOrOne true comment) (named key)

def line (key : Text) : Pattern :=
  .sequence .empty (.sequence (.look .anyLineStart) (.sequence LinePattern.blanks (body key)))

theorem ofTree?_nameTree (m : Mode) (hm : m.ignoreCase = true) (hu : m.unicode = true) (key : Text) :
    Pattern.ofTree? m (nameTree key) = some (name key, m) := by
  have hletter : ∀ c, Pattern.ofTree? m (.char c false) = some (letter c, m) := by
    intro c
    rw [Pattern.ofTree?, Pattern.ofChar?, hm, hu]
    rfl
  have hparts : Pattern.ofSequence? m (key.map fun c => .char c false) = some (letters key, m) := by
    induction key with
    | nil => rfl
    | cons c key ih => simp [Pattern.ofSequence?, hletter, ih, letters]
  cases key with
  | nil => rfl
  | cons c key =>
    cases key with
    | nil => exact hletter c
    | cons d key => exact hparts

theorem ofSequence?_cons {m m' m'' : Mode} {t : PatternTree} {ts : List PatternTree} {p q : Pattern}
    (ht : Pattern.ofTree? m t = some (p, m')) (hts : Pattern.ofSequence? m' ts = some (q, m'')) :
    Pattern.ofSequence? m (t :: ts) = some (.sequence p q, m'') := by
  simp only [Pattern.ofSequence?, ht, hts, Option.bind_eq_bind, Option.bind_some]
  rfl

/-- The text that merging writes for a key stands for the pattern of its lines. -/
theorem ofText?_keyGrammar (key : KeyName) : Pattern.ofText? (keyGrammar key.text) = some (line key.text) := by
  let m : Mode := { multiLine := true, carriageReturn := true }
  have hname := ofTree?_nameTree (m.set [(.ignoreCase, true)]) rfl rfl key.text
  have hgroup : Pattern.ofTree? m (.group none [(.ignoreCase, true)] (nameTree key.text)) =
      some (.group none (name key.text), m) := by
    rw [Pattern.ofTree?, hname]
    rfl
  have hbehind : Pattern.ofSequence? m [treeBehind] = some (.sequence behind .empty, m) := rfl
  have htree : Pattern.ofTree? {} (tree key.text) = some (line key.text, m) := by
    rw [tree, Pattern.ofTree?]
    -- the switches, the start of the line, the blanks and the comment do not depend on the name
    refine ofSequence?_cons rfl ?_
    refine ofSequence?_cons rfl ?_
    refine ofSequence?_cons rfl ?_
    refine ofSequence?_cons rfl ?_
    exact ofSequence?_cons hgroup hbehind
  rw [Pattern.ofText?, ofText?_tree key.isAlphanumeric_of_mem]
  simp only [Option.bind_eq_bind, Option.bind_some, htree]
  rfl

end KeyPattern

end TunnelConf
