import TunnelConf.Line
import TunnelConf.Proofs.Position

/-!
# Records tile a text

The records of a text are what comes of cutting it behind each LF and taking the ending off each piece
(`ofText_eq_ofPieces`). `LineRecord.Cover` says how records lie: one behind the other, each but the last with LF
or CRLF behind its text. The table of lines has the same starts. Main statement: `ofText_tiles`.
-/

namespace TunnelConf

open Text Line Position

/-! ### Pieces -/

namespace Text

/-- The parts of a text up to each LF, with it; what follows the last LF is a part if not empty. -/
def pieces : Text → List Text
  | [] => []
  | c :: t =>
    if c = '\n' then [c] :: pieces t
    else
      match pieces t with
      | [] => [[c]]
      | p :: ps => (c :: p) :: ps

/-- The text in front of a final `c`. -/
def dropFinal? (c : Char) (t : Text) : Option Text := if t.getLast? = some c then some t.dropLast else none

/-- A piece without its LF, and without a CR in front of that. -/
def bare (piece : Text) : Text :=
  match dropFinal? '\n' piece with
  | none => piece
  | some u => (dropFinal? '\r' u).getD u

variable {c : Char} {p t u : Text}

theorem dropFinal?_cons (hp : p ≠ []) (d : Char) : dropFinal? c (d :: p) = (dropFinal? c p).map (d :: ·) := by
  obtain ⟨e, p, rfl⟩ := List.exists_cons_of_ne_nil hp
  rw [dropFinal?, dropFinal?, List.getLast?_cons_cons, List.dropLast_cons_cons]
  split <;> rfl

theorem bare_of_not_mem (h : '\n' ∉ u) : bare u = u := by
  have hlast : u.getLast? ≠ some '\n' := fun hlast => h (List.mem_of_getLast? hlast)
  rw [bare, dropFinal?, if_neg hlast]

theorem bare_concat_lf (u : Text) : bare (u ++ ['\n']) = (dropFinal? '\r' u).getD u := by
  rw [bare, dropFinal?, List.getLast?_concat, if_pos rfl, List.dropLast_concat]

/-- A character in front of a piece stays, unless it is a CR in front of a lone LF. -/
theorem bare_cons (hc : c ≠ '\n') (h : c = '\r' → p ≠ ['\n']) : bare (c :: p) = c :: bare p := by
  by_cases hp : p = []
  · subst hp
    exact bare_of_not_mem (by simpa using Ne.symm hc)
  rw [bare, bare, dropFinal?_cons hp]
  cases hu : dropFinal? '\n' p with
  | none => rfl
  | some u =>
    by_cases hnil : u = []
    · subst hnil
      have hcr : c ≠ '\r' := by
        rintro rfl
        refine h rfl ?_
        rw [dropFinal?] at hu
        split at hu
        · next hlast =>
          have := List.dropLast_append_getLast? _ hlast
          rw [Option.some.inj hu] at this
          exact this.symm
        · cases hu
      simp [dropFinal?, hcr]
    · rw [Option.map_some]
      show (dropFinal? '\r' (c :: u)).getD (c :: u) = c :: (dropFinal? '\r' u).getD u
      rw [dropFinal?_cons hnil]
      cases dropFinal? '\r' u <;> rfl

end Text

namespace LineRecord

/-- The records of some pieces, the first one at `offset`. -/
def ofPieces (offset : Nat) : List Text → List LineRecord
  | [] => []
  | p :: ps => ⟨bare p, offset, offset + size p⟩ :: ofPieces (offset + size p) ps

end LineRecord

namespace Line

variable {t : Text} {l : Line} {ls : List Line}

theorem exists_ofPhysical (t : Text) : ∃ l ls, ofPhysical t = l :: ls ∧ (t ≠ [] → l.text ≠ []) := by
  fun_cases ofPhysical t with
  | case1 => exact ⟨_, _, rfl, fun h => absurd rfl h⟩
  | case2 t => exact ⟨_, _, rfl, fun _ => by simp [text, Ending.text]⟩
  | case3 t => exact ⟨_, _, rfl, fun _ => by simp [text, Ending.text]⟩
  | case4 c t => cases ofPhysical t <;> exact ⟨_, _, rfl, fun _ => by simp [text]⟩

/-- What is left of a line without its ending is its body. -/
theorem bare_text_ofPhysical (t : Text) : ∀ l ∈ ofPhysical t, bare l.text = l.body := by
  fun_induction ofPhysical t with
  | case1 => exact List.forall_mem_singleton.2 rfl
  | case2 t ih => exact List.forall_mem_cons.2 ⟨rfl, ih⟩
  | case3 t ih => exact List.forall_mem_cons.2 ⟨rfl, ih⟩
  | case4 c t hlf hcrlf ih =>
    obtain ⟨m, ms, hms, -⟩ := exists_ofPhysical t
    rw [hms] at ih ⊢
    obtain ⟨hm, hrest⟩ := List.forall_mem_cons.1 ih
    refine List.forall_mem_cons.2 ⟨?_, hrest⟩
    show bare (c :: m.text) = c :: m.body
    rw [bare_cons (by simpa using hlf), hm]
    -- a CR in front of a lone LF makes one ending with it
    rintro rfl htext
    have ht := text_ofPhysical t
    rw [hms, List.flatMap_cons, htext] at ht
    exact hcrlf _ rfl ht.symm

theorem filter_text_ofPhysical (t : Text) : ((ofPhysical t).map text).filter (!·.isEmpty) = pieces t := by
  fun_induction ofPhysical t with
  | case1 => rfl
  | case2 t ih => simp [pieces, text, Ending.text, ih]
  | case3 t ih => simp [pieces, text, Ending.text, ih]
  | case4 c t hlf hcrlf ih =>
    have hc : c ≠ '\n' := by simpa using hlf
    obtain ⟨m, ms, hms, hne⟩ := exists_ofPhysical t
    rw [pieces, if_neg hc, ← ih, hms]
    cases t with
    | nil =>
      obtain ⟨rfl, rfl⟩ := List.cons.inj hms
      rfl
    | cons d t =>
      have hm : (!m.text.isEmpty) = true := by simpa using hne (List.cons_ne_nil d t)
      show ((c :: m.text) :: ms.map text).filter _ = match (m.text :: ms.map text).filter _ with
        | [] => [[c]]
        | p :: ps => (c :: p) :: ps
      rw [List.filter_cons_of_pos rfl, List.filter_cons_of_pos (p := fun u : Text => !u.isEmpty) hm]

end Line

namespace LineRecord

theorem ofText_eq_ofPieces (t : Text) : ofText t = ofPieces 0 (pieces t) := by
  have h : ∀ n ls, (∀ l ∈ ls, bare l.text = l.body) →
      ((placed n ls).filterMap fun p => if p.2.text.isEmpty then none else some (ofLine p.1 p.2)) =
        ofPieces n ((ls.map Line.text).filter (!·.isEmpty)) := by
    intro n ls hls
    induction ls generalizing n with
    | nil => rfl
    | cons l ls ih =>
      obtain ⟨hl, hls⟩ := List.forall_mem_cons.1 hls
      have ih := ih (n + size l.text) hls
      by_cases hne : l.text = []
      · rw [hne] at ih
        simpa [placed, hne] using ih
      · simpa [placed, hne, ofPieces, ofLine, hl] using ih
  rw [ofText, h 0 _ (bare_text_ofPhysical t), filter_text_ofPhysical]

end LineRecord

/-! ### How records lie -/

namespace Text

/-- Parts of a text, each but the last one with an LF at its end and no other. -/
inductive ArePieces : List Text → Prop
  | nil : ArePieces []
  | last {u : Text} : '\n' ∉ u → u ≠ [] → ArePieces [u]
  | cons {u : Text} {ps : List Text} : '\n' ∉ u → ArePieces ps → ArePieces ((u ++ ['\n']) :: ps)

theorem arePieces_pieces (t : Text) : ArePieces (pieces t) := by
  induction t with
  | nil => exact .nil
  | cons c t ih =>
    rw [pieces]
    split
    · next hc => exact hc ▸ .cons (u := []) (by simp) ih
    · next hc =>
      have hcons : ∀ u : Text, '\n' ∉ u → '\n' ∉ c :: u := fun u hu => by simp [hu, Ne.symm hc]
      cases hp : pieces t with
      | nil => exact .last (hcons [] (by simp)) (by simp)
      | cons p ps =>
        rw [hp] at ih
        cases ih with
        | last hu hne => exact .last (hcons _ hu) (by simp)
        | cons hu hps => exact .cons (hcons _ hu) hps

theorem flatten_pieces (t : Text) : (pieces t).flatten = t := by
  induction t with
  | nil => rfl
  | cons c t ih =>
    rw [pieces]
    split
    · simp [ih]
    · cases hp : pieces t with
      | nil => rw [← ih, hp]; rfl
      | cons p ps => rw [← ih, hp]; rfl

end Text

namespace LineRecord

/-- The records `rs` cover the text `t`, which starts at the offset `n`: one behind the other, each but the last with
LF or CRLF behind its own text. -/
inductive Cover : Nat → Text → List LineRecord → Prop
  | nil {n : Nat} : Cover n [] []
  | last {n : Nat} {u : Text} : '\n' ∉ u → u ≠ [] → Cover n u [⟨u, n, n + size u⟩]
  | cons {n : Nat} {u t : Text} {e : Ending} {rs : List LineRecord} : '\n' ∉ u →
      (e = .lf ∧ u.getLast? ≠ some '\r' ∨ e = .crlf) → Cover (n + size (u ++ e.text)) t rs →
      Cover n (u ++ e.text ++ t) (⟨u, n, n + size (u ++ e.text)⟩ :: rs)

theorem cover_ofPieces {ps : List Text} (h : ArePieces ps) (n : Nat) : Cover n ps.flatten (ofPieces n ps) := by
  induction h generalizing n with
  | nil => exact .nil
  | @last u hu hne =>
    rw [ofPieces, bare_of_not_mem hu, List.flatten_singleton]
    exact .last hu hne
  | @cons u ps hu hps ih =>
    rw [ofPieces, bare_concat_lf, List.flatten_cons, dropFinal?]
    split
    · next hlast =>
      obtain ⟨v, rfl⟩ := List.getLast?_eq_some_iff.1 hlast
      have hend : v ++ ['\r'] ++ ['\n'] = v ++ Ending.crlf.text := by simp [Ending.text]
      rw [List.dropLast_concat, Option.getD_some, hend]
      exact .cons (fun hv => hu (by simp [hv])) (.inr rfl) (ih _)
    · next hlast => exact .cons hu (.inl ⟨rfl, hlast⟩) (ih _)

theorem cover_ofText (t : Text) : Cover 0 t (ofText t) := by
  have h := cover_ofPieces (arePieces_pieces t) 0
  rwa [flatten_pieces, ← ofText_eq_ofPieces] at h

/-- Records one behind the other from the first offset to the second. -/
inductive Tiles : Nat → List LineRecord → Nat → Prop
  | nil {n : Nat} : Tiles n [] n
  | cons {n m : Nat} {r : LineRecord} {rs : List LineRecord} : r.start = n → Tiles r.stop rs m →
      Tiles n (r :: rs) m

/-- The part of a text that a record covers. -/
def slice? (r : LineRecord) (t : Text) : Option Text := Text.slice? r.start (r.stop - r.start) t

namespace Cover

variable {n : Nat} {t a : Text} {rs before after : List LineRecord} {r : LineRecord}

theorem tiles (h : Cover n t rs) : Tiles n rs (n + size t) := by
  induction h with
  | nil => exact .nil
  | last => exact .cons rfl .nil
  | @cons n u t e rs _ _ _ ih =>
    rw [size_append (u ++ e.text), ← Nat.add_assoc]
    exact .cons rfl ih

theorem forall_mem (h : Cover n t rs) : ∀ r ∈ rs, r.start < r.stop ∧ '\n' ∉ r.text := by
  induction h with
  | nil => simp
  | @last n u hu hne =>
    have := size_pos_iff.2 hne
    exact List.forall_mem_singleton.2 ⟨by show n < n + size u; omega, hu⟩
  | @cons n u t e rs hu he _ ih =>
    have hpos : 0 < size e.text := by rcases he with ⟨rfl, -⟩ | rfl <;> decide
    refine List.forall_mem_cons.2 ⟨⟨?_, hu⟩, ih⟩
    show n < n + size (u ++ e.text)
    rw [size_append]
    omega

theorem slice?_eq (hn : size a = n) (u b : Text) (v : Text) :
    slice? ⟨v, n, n + size u⟩ (a ++ (u ++ b)) = some u := by
  rw [slice?, Nat.add_sub_cancel_left, slice?_eq_some_iff]
  exact ⟨a, b, by simp, hn, rfl⟩

/-- Behind the text of a record stands LF or CRLF, or nothing if it is the last one. -/
theorem exists_ending (h : Cover n t rs) (hn : size a = n) (hr : rs = before ++ r :: after) :
    ∃ e : Ending, r.slice? (a ++ t) = some (r.text ++ e.text) ∧
      (e = .lf ∧ r.text.getLast? ≠ some '\r' ∨ e = .crlf ∨ e = .none ∧ after = []) := by
  induction h generalizing a before with
  | nil => simp at hr
  | @last n u hu hne =>
    obtain ⟨rfl, hhead⟩ | ⟨_, -, hrest⟩ := List.cons_eq_append_iff.1 hr
    · obtain ⟨rfl, rfl⟩ := List.cons.inj hhead
      refine ⟨.none, ?_, .inr (.inr ⟨rfl, rfl⟩)⟩
      simpa [Ending.text] using slice?_eq hn u [] u
    · simp at hrest
  | @cons n u t e rs hu he _ ih =>
    obtain ⟨rfl, hhead⟩ | ⟨before, rfl, hrest⟩ := List.cons_eq_append_iff.1 hr
    · obtain ⟨rfl, rfl⟩ := List.cons.inj hhead
      exact ⟨e, slice?_eq hn (u ++ e.text) t u, he.imp_right .inl⟩
    · rw [← List.append_assoc]
      exact ih (by rw [size_append, hn]) hrest

theorem exists_slices (h : Cover n t rs) (hn : size a = n) :
    ∃ slices : List Text, rs.map (·.slice? (a ++ t)) = slices.map some ∧ slices.flatten = t := by
  induction h generalizing a with
  | nil => exact ⟨[], rfl, rfl⟩
  | @last n u hu hne =>
    refine ⟨[u], ?_, by simp⟩
    have := slice?_eq hn u [] u
    rw [List.append_nil] at this
    rw [List.map_singleton, this]
    rfl
  | @cons n u t e rs hu he _ ih =>
    obtain ⟨slices, hs, hflat⟩ := ih (a := a ++ (u ++ e.text)) (by rw [size_append, hn])
    refine ⟨(u ++ e.text) :: slices, ?_, by rw [List.flatten_cons, hflat]⟩
    rw [List.map_cons, slice?_eq hn, ← List.append_assoc, hs]
    rfl

/-- Lines start where records do, and one more where nothing follows an LF. -/
theorem starts (h : Cover n t rs) : n :: startsAfter n t =
    rs.map LineRecord.start ++ if t = [] ∨ t.getLast? = some '\n' then [n + size t] else [] := by
  induction h with
  | nil => rfl
  | @last n u hu hne =>
    have hlast : u.getLast? ≠ some '\n' := fun hlast => hu (List.mem_of_getLast? hlast)
    rw [startsAfter_eq_nil hu, if_neg (not_or.2 ⟨hne, hlast⟩)]
    rfl
  | @cons n u t e rs hu he _ ih =>
    have hbreak : startsAfter n (u ++ e.text) = [n + size (u ++ e.text)] := by
      rw [startsAfter_append, startsAfter_eq_nil hu, size_append, ← Nat.add_assoc]
      rcases he with ⟨rfl, -⟩ | rfl <;> rfl
    have hlast : (u ++ e.text).getLast? = some '\n' := by rcases he with ⟨rfl, -⟩ | rfl <;> simp [Ending.text]
    have hend : (u ++ e.text ++ t = [] ∨ (u ++ e.text ++ t).getLast? = some '\n') ↔
        (t = [] ∨ t.getLast? = some '\n') := by
      have hne : u ++ e.text ≠ [] := by
        intro hnil
        rw [hnil] at hlast
        cases hlast
      cases t with
      | nil => simp [hlast]
      | cons c t => simp
    rw [startsAfter_append, hbreak, List.singleton_append, ih, List.map_cons, List.cons_append,
      size_append (u ++ e.text), ← Nat.add_assoc]
    simp only [hend]

end Cover

/-- The records of a text tile it. Each has LF or CRLF behind its own text, which has no LF, and only the last one
may have nothing there. Lines start where records do, and at the end of a text that is empty or ends with LF. -/
theorem ofText_tiles (t : Text) :
    let records := ofText t
    records = ofPieces 0 (pieces t) ∧ Tiles 0 records (size t) ∧
    (∀ r ∈ records, r.start < r.stop ∧ '\n' ∉ r.text) ∧
    (∀ before r after, records = before ++ r :: after → ∃ e : Ending,
      r.slice? t = some (r.text ++ e.text) ∧
        (e = .lf ∧ r.text.getLast? ≠ some '\r' ∨ e = .crlf ∨ e = .none ∧ after = [])) ∧
    (∃ slices : List Text, records.map (·.slice? t) = slices.map some ∧ slices.flatten = t) ∧
    lineStarts t =
      records.map LineRecord.start ++ if t = [] ∨ t.getLast? = some '\n' then [size t] else [] := by
  intro records
  have h : Cover 0 t records := cover_ofText t
  refine ⟨ofText_eq_ofPieces t, by simpa using h.tiles, h.forall_mem,
    fun before r after hr => h.exists_ending (a := []) rfl hr, h.exists_slices (a := []) rfl, ?_⟩
  simpa [lineStarts] using h.starts

example : (ofText "é\r\n\r\n\n\rlast\r".toList).map (·.text) =
    ["é".toList, [], [], "\rlast\r".toList] := by decide +kernel

end LineRecord

end TunnelConf
