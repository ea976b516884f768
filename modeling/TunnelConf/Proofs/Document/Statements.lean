import TunnelConf.Document
import TunnelConf.Proofs.Lines

/-!
# What lines say about the structure of a file

`Says` is the reading of a line: a header, or a key and a value with the first equals sign of the line
between them. Main statement: `Statement.ofLine?_eq_some_iff`, a line is read as what it says and says at
most one thing. A file is read as what its lines say, one after the other (`Document.parse_eq`).
-/

namespace TunnelConf

open Text Line

/-- What a line says, the white space around it aside. Comments and headers are no entries, also if there
is an equals sign in them. -/
inductive Says (line : Text) : Statement → Prop
  | header {name : Text} (h : trim line = '[' :: (name ++ [']'])) : Says line (.header name)
  | entry {key value : Text} (hline : trim line = key ++ '=' :: value) (hkey : '=' ∉ key)
    (hcomment : ∀ c ∈ (trim line).head?, c ≠ '#' ∧ c ≠ ';')
    (hheader : ∀ name, trim line ≠ '[' :: (name ++ [']'])) : Says line (.entry (trim key) (trim value))

theorem Says.trimmed {line key value : Text} (h : Says line (.entry key value)) : Trimmed key ∧ Trimmed value := by
  cases h with
  | entry => exact ⟨trimmed_trim _, trimmed_trim _⟩

namespace Statement

theorem ofLine?_of_trim {line : Text} {c : Char} {rest : Text} (h : trim line = c :: rest) :
    ofLine? line =
      if c = '#' ∨ c = ';' then none
      else if c = '[' ∧ rest.getLast? = some ']' then some (.header rest.dropLast)
      else (splitFirst? '=' (c :: rest)).map fun p => .entry (trim p.1) (trim p.2) := by
  simp only [ofLine?, h, Bool.or_eq_true, Bool.and_eq_true, decide_eq_true_eq]

theorem ofLine?_of_trim_nil {line : Text} (h : trim line = []) : ofLine? line = none := by
  simp only [ofLine?, h]

theorem ofLine?_nil : ofLine? [] = none := rfl

/-- The text behind an opening bracket is a name and a closing one. -/
theorem closes_iff {c : Char} {rest : Text} :
    (c = '[' ∧ rest.getLast? = some ']') ↔ ∃ name, c :: rest = '[' :: (name ++ [']']) := by
  rw [List.getLast?_eq_some_iff]
  constructor
  · rintro ⟨rfl, name, rfl⟩; exact ⟨name, rfl⟩
  · rintro ⟨name, h⟩
    obtain ⟨rfl, rfl⟩ := List.cons.inj h
    exact ⟨rfl, name, rfl⟩

theorem says_of_ofLine? {line : Text} {s : Statement} (h : ofLine? line = some s) : Says line s := by
  cases ht : trim line with
  | nil => rw [ofLine?_of_trim_nil ht] at h; cases h
  | cons c rest =>
    rw [ofLine?_of_trim ht] at h
    split at h
    · cases h
    · next hcomment =>
      split at h
      · next hheader =>
        obtain ⟨name, hname⟩ := closes_iff.1 hheader
        obtain ⟨-, rfl⟩ := List.cons.inj hname
        rw [List.dropLast_concat] at h
        obtain rfl := Option.some.inj h
        exact .header (ht.trans hname)
      · next hheader =>
        obtain ⟨⟨key, value⟩, hp, rfl⟩ := Option.map_eq_some_iff.1 h
        obtain ⟨hsplit, hkey⟩ := splitFirst?_eq_some_iff.1 hp
        refine .entry (ht.trans hsplit) hkey (fun d hd => ?_) fun name hname => ?_
        · rw [ht] at hd
          obtain rfl : c = d := by simpa using hd
          exact not_or.1 hcomment
        · exact hheader (closes_iff.2 ⟨name, ht.symm.trans hname⟩)

theorem ofLine?_eq_some {line : Text} {s : Statement} (h : Says line s) : ofLine? line = some s := by
  cases h with
  | @header name ht =>
    rw [ofLine?_of_trim ht, if_neg (by decide), if_pos (closes_iff.2 ⟨name, rfl⟩), List.dropLast_concat]
  | @entry key value hline hkey hcomment hheader =>
    obtain ⟨c, rest, ht⟩ := List.exists_cons_of_ne_nil (l := trim line) (by simp [hline])
    have hc := hcomment c (by rw [ht]; rfl)
    have hb : ¬ (c = '[' ∧ rest.getLast? = some ']') := fun hb => by
      obtain ⟨name, hname⟩ := closes_iff.1 hb
      exact hheader name (ht.trans hname)
    have hsplit : splitFirst? '=' (c :: rest) = some (key, value) :=
      splitFirst?_eq_some_iff.2 ⟨ht.symm.trans hline, hkey⟩
    rw [ofLine?_of_trim ht, if_neg (not_or.2 hc), if_neg hb, hsplit]
    rfl

theorem ofLine?_eq_some_iff {line : Text} {s : Statement} : ofLine? line = some s ↔ Says line s :=
  ⟨says_of_ofLine?, ofLine?_eq_some⟩

/-- A line without an equals sign that does not begin like a header says nothing. -/
theorem ofLine?_eq_none_of_trim {line : Text} (he : '=' ∉ trim line) (hb : ∀ c ∈ (trim line).head?, c ≠ '[') :
    ofLine? line = none := by
  rw [Option.eq_none_iff_forall_ne_some]
  intro s hs
  cases says_of_ofLine? hs with
  | header hname => exact hb '[' (by rw [hname]; rfl) rfl
  | entry hline => exact he (by rw [hline]; simp)

end Statement

/-! ### Entries -/

namespace Statement

theorem isSpace_equals : isSpace '=' = false := by decide

theorem comments_iff {a b : Text} : (∀ c ∈ (trim (a ++ '=' :: b)).head?, c ≠ '#' ∧ c ≠ ';') ↔
    ∀ c ∈ (trim a).head?, c ≠ '#' ∧ c ≠ ';' := by
  rw [head?_trim_append_cons isSpace_equals]
  cases (trim a).head? with
  | none => simp
  | some d => simp

/-- An equals sign neither opens a header nor closes one. -/
theorem encloses_iff {a b : Text} : (∃ name, trim (a ++ '=' :: b) = '[' :: (name ++ [']'])) ↔
    (trim a).head? = some '[' ∧ (trim b).getLast? = some ']' := by
  have hhead := head?_trim_append_cons isSpace_equals a b
  have hlast := getLast?_trim_append_cons isSpace_equals a b
  have hopen : (trim a).head?.getD '=' = '[' ↔ (trim a).head? = some '[' := by
    cases (trim a).head? <;> simp
  have hclose : (trim b).getLast?.getD '=' = ']' ↔ (trim b).getLast? = some ']' := by
    cases (trim b).getLast? <;> simp
  rw [← hopen, ← hclose]
  cases hu : trim (a ++ '=' :: b) with
  | nil => rw [hu] at hhead; cases hhead
  | cons c rest =>
    rw [hu] at hhead hlast
    rw [← closes_iff, ← Option.some.inj hhead]
    refine and_congr_right fun hc => ?_
    rw [List.getLast?_cons, Option.some.injEq, hc] at hlast
    rw [← hlast]
    cases rest.getLast? <;> simp

end Statement

/-- An entry stands around the first equals sign of a line, unless its key begins like a comment, or begins
like a header that its value ends. -/
theorem says_entry_iff {line key value : Text} : Says line (.entry key value) ↔
    ∃ a b, line = a ++ '=' :: b ∧ '=' ∉ a ∧ trim a = key ∧ trim b = value ∧
      (∀ c ∈ key.head?, c ≠ '#' ∧ c ≠ ';') ∧ (key.head? = some '[' → value.getLast? ≠ some ']') := by
  constructor
  · intro h
    cases h with
    | @entry key value htrim hkey hcomment hheader =>
      obtain ⟨x, y, hline, hx, hy⟩ := exists_trim line
      have hsplit : line = (x ++ key) ++ '=' :: (value ++ y) := by rw [hline, htrim]; simp
      have hx' : '=' ∉ x := fun hmem => by
        have := hx _ hmem
        rw [Statement.isSpace_equals] at this
        cases this
      have hkey' : trim (x ++ key) = trim key := trim_append_of_all hx
      have hvalue' : trim (value ++ y) = trim value := trim_append_right_of_all hy
      rw [hsplit, Statement.comments_iff, hkey'] at hcomment
      have hheader' := mt Statement.encloses_iff.2 (not_exists.2 (hsplit ▸ hheader))
      rw [hkey', hvalue', not_and] at hheader'
      exact ⟨x ++ key, value ++ y, hsplit, by simp [hx', hkey], hkey', hvalue', hcomment, hheader'⟩
  · rintro ⟨a, b, rfl, ha, rfl, rfl, hcomment, hheader⟩
    have hkey : trim (a.dropWhile isSpace) = trim a := by
      conv_rhs => rw [← List.takeWhile_append_dropWhile (p := isSpace) (l := a)]
      rw [trim_append_of_all fun _ hc => List.mem_takeWhile_imp hc]
    rw [← hkey, ← trim_trimEndWhile b]
    refine .entry (trim_append_cons Statement.isSpace_equals a b) (fun hmem => ?_) ?_ fun name hname => ?_
    · exact ha ((List.dropWhile_sublist isSpace).subset hmem)
    · exact Statement.comments_iff.2 hcomment
    · obtain ⟨hopen, hclose⟩ := Statement.encloses_iff.1 ⟨name, hname⟩
      exact hheader hopen hclose

/-! ### What a file says -/

theorem Line.body_eq_nil_of_text {l : Line} (h : l.text = []) : l.body = [] :=
  (List.append_eq_nil_iff.1 h).1

theorem LineRecord.filterMap_ofLine? (start : Nat) (ls : List Line) :
    ((placed start ls).filterMap fun (n, l) => if l.text.isEmpty then none else some (ofLine n l)).filterMap
      (fun r => Statement.ofLine? r.text) = ls.filterMap fun l => Statement.ofLine? l.body := by
  induction ls generalizing start with
  | nil => rfl
  | cons l ls ih =>
    rw [placed, List.filterMap_cons, List.filterMap_cons]
    by_cases hl : l.text.isEmpty = true
    · have hb : l.body = [] := Line.body_eq_nil_of_text (List.isEmpty_iff.1 hl)
      simp only [hl, if_true, hb, Statement.ofLine?_nil, ih]
    · simp only [hl]
      rw [if_neg (by simp), List.filterMap_cons, ih]
      rfl

/-- A line without an ending and without characters is no record, but says nothing either. -/
theorem Document.parse_eq (t : Text) :
    parse t = ofStatements ((ofPhysical t).filterMap fun l => Statement.ofLine? l.body) := by
  rw [parse, LineRecord.ofText, LineRecord.filterMap_ofLine?]

/-! ### What the lines between LFs say -/

theorem Statement.ofLine?_append_cr (line : Text) : ofLine? (line ++ ['\r']) = ofLine? line := by
  have hcr : trim (line ++ ['\r']) = trim line := trim_concat_of_isSpace (by decide) line
  simp only [ofLine?, hcr]

namespace Document

/-- What the lines of a file say. A CR in front of an LF is white space at the end of its line. -/
def statements (t : Text) : List Statement := (splitWhere (· == '\n') t).filterMap Statement.ofLine?

theorem forall₂_ofPhysical (t : Text) :
    List.Forall₂ (fun l line => line = l.body ∨ line = l.body ++ ['\r']) (ofPhysical t)
      (splitWhere (· == '\n') t) := by
  fun_induction ofPhysical t with
  | case1 => exact .cons (.inl rfl) .nil
  | case2 t ih =>
    rw [splitWhere, if_pos (by decide)]
    exact .cons (.inl rfl) ih
  | case3 t ih =>
    rw [splitWhere, if_neg (by decide), splitWhere, if_pos (by decide)]
    exact .cons (.inr rfl) ih
  | case4 c t hlf hcrlf ih =>
    rw [splitWhere, if_neg (by simpa using hlf)]
    generalize ofPhysical t = ls, splitWhere (· == '\n') t = lines at ih
    cases ih with
    | nil => exact .cons (.inl rfl) .nil
    | cons h hs =>
      refine .cons ?_ hs
      rcases h with rfl | rfl
      · exact .inl rfl
      · exact .inr rfl

theorem parse_eq_statements (t : Text) : parse t = ofStatements (statements t) := by
  rw [parse_eq, statements]
  refine congrArg ofStatements ?_
  have h := forall₂_ofPhysical t
  generalize ofPhysical t = ls, splitWhere (· == '\n') t = lines at h
  induction h with
  | nil => rfl
  | @cons l line ls lines h _ ih =>
    have hl : Statement.ofLine? line = Statement.ofLine? l.body := by
      rcases h with rfl | rfl
      · rfl
      · exact Statement.ofLine?_append_cr l.body
    rw [List.filterMap_cons, List.filterMap_cons, hl, ih]

theorem statements_append_lf (a b : Text) : statements (a ++ '\n' :: b) = statements a ++ statements b := by
  rw [statements, splitWhere_append_cons (by decide), List.filterMap_append, statements, statements]

theorem statements_of_not_mem {line : Text} (h : '\n' ∉ line) :
    statements line = (Statement.ofLine? line).toList := by
  have hsplit : splitWhere (· == '\n') line = [line] := splitWhere_eq_singleton fun c hc => by
    rw [beq_eq_false_iff_ne]
    rintro rfl
    exact h hc
  rw [statements, hsplit, List.filterMap_cons]
  cases Statement.ofLine? line <;> rfl

theorem exists_line_of_mem_statements {t : Text} {s : Statement} (h : s ∈ statements t) :
    ∃ line, '\n' ∉ line ∧ Says line s := by
  obtain ⟨line, hline, hs⟩ := List.mem_filterMap.1 h
  refine ⟨line, fun hmem => ?_, Statement.says_of_ofLine? hs⟩
  have := forall_of_mem_splitWhere hline _ hmem
  cases this

end Document

end TunnelConf
