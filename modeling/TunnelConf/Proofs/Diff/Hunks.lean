import Mathlib.Data.List.Chain
import TunnelConf.Proofs.Diff.Patch

/-!
# The hunks of a script

The hunks of a script are its changes with two kept lines around them (`laid_ofScript`). A hunk that begins or ends
with a kept line counts its lines itself; at any other hunk the header takes the place that its first or its last
change has noted, and such a hunk begins or ends where the script does. So of all the places that are noted in a
script at most two are ever written. Main statement: a diff can be applied just if these are the right ones
(`Patch.applied?_render_iff`).
-/

namespace TunnelConf

open Text

/-- A change that is not kept notes the place where it stands, at old line `i` and new line `j`. -/
def Change.OnPlace {α : Type} (c : Change α) (i j : Nat) : Prop :=
  match c with
  | .keep _ => True
  | .delete _ place => place = j
  | .insert _ place => place = i

/-- The first change and the last one note the right places, if they are not kept. -/
def Script.EndsOnPlace {α : Type} (s : Script α) : Prop :=
  (∀ c ∈ s.head?, c.OnPlace 0 0) ∧ ∀ c ∈ s.getLast?, c.OnPlace (old s).length (new s).length

namespace Hunk

variable {c d : Change Text} {cs : Script Text} {h : Hunk} {hs : List Hunk} {i j : Nat} {first : Bool}

/-! ### Headers that count right -/

/-- The header of a hunk says where it stands and how many lines it has. -/
structure Placed (h : Hunk) : Prop where
  oldStart : h.oldRange.1 = h.oldStart
  oldCount : h.oldRange.2 - h.oldRange.1 = (Script.old h.changes).length
  newStart : h.newRange.1 = h.newStart
  newCount : h.newRange.2 - h.newRange.1 = (Script.new h.changes).length

theorem placed_iff (hc : h.changes.head? = some c) (hd : h.changes.getLast? = some d)
    (hfirst : c.isKeep = false → h.oldStart = 0 ∧ h.newStart = 0) :
    h.Placed ↔ c.OnPlace h.oldStart h.newStart ∧
      d.OnPlace (h.oldStart + (Script.old h.changes).length) (h.newStart + (Script.new h.changes).length) := by
  have hdef : h.Placed ↔ h.oldRange.1 = h.oldStart ∧ h.oldRange.2 - h.oldRange.1 = (Script.old h.changes).length ∧
      h.newRange.1 = h.newStart ∧ h.newRange.2 - h.newRange.1 = (Script.new h.changes).length :=
    ⟨fun ⟨a, b, c, d⟩ => ⟨a, b, c, d⟩, fun ⟨a, b, c, d⟩ => ⟨a, b, c, d⟩⟩
  -- a first change that is not kept counts in one of the texts, so that no count there is zero
  have hcount : (c.isInsert = false → 1 ≤ (Script.old h.changes).length) ∧
      (c.isDelete = false → 1 ≤ (Script.new h.changes).length) := by
    obtain ⟨cs, hcs⟩ := List.head?_eq_some_iff.1 hc
    rw [hcs]
    cases c <;> simp [Change.isInsert, Change.isDelete]
  obtain ⟨hold, hnew⟩ := hcount
  rw [hdef, oldRange, newRange, hc, hd]
  clear hdef
  generalize (Script.old h.changes).length = m at *
  generalize (Script.new h.changes).length = n at *
  cases c <;> cases d <;>
    simp only [Change.isKeep, Change.isInsert, Change.isDelete, Bool.true_eq_false, forall_const,
      false_implies] at hfirst hold hnew <;>
    simp only [Change.OnPlace, true_and, and_true, iff_true] <;> omega

/-! ### Where hunks lie -/

/-- Next to a change that is not kept, both of two changes are shown. -/
def Touch (x y : Change Text × Bool) : Prop :=
  x.1.isKeep = false ∨ y.1.isKeep = false → x.2 = true ∧ y.2 = true

/-- Hunks of changes that are marked or not, from old line `i` and new line `j` on. What is not marked is kept. Only
the first change of the script can begin a hunk, and only the last one can end a hunk, if it is not kept. -/
inductive Laid : Bool → Nat → Nat → List (Change Text × Bool) → List Hunk → Prop
  | done {first : Bool} {i j : Nat} {z : List (Change Text × Bool)} :
      (∀ x ∈ z, x.1.isKeep = true ∧ x.2 = false) → Laid first i j z []
  | hunk {first : Bool} {i j : Nat} {gap z rest : List (Change Text × Bool)} {hs : List Hunk} :
      (∀ x ∈ gap, x.1.isKeep = true ∧ x.2 = false) → (∀ x ∈ z, x.2 = true) → z ≠ [] →
      (first = true ∧ gap = [] ∨ ∀ x ∈ z.head?, x.1.isKeep = true) →
      (rest = [] ∨ ∀ x ∈ z.getLast?, x.1.isKeep = true) →
      Laid false (i + gap.length + (Script.old (z.map Prod.fst)).length)
        (j + gap.length + (Script.new (z.map Prod.fst)).length) rest hs →
      Laid first i j (gap ++ (z ++ rest)) (⟨i + gap.length, j + gap.length, z.map Prod.fst⟩ :: hs)

variable {z : List (Change Text × Bool)} {x : Change Text × Bool}

/-- Behind a change that is not marked, no hunk begins with a change that is not kept. -/
theorem Laid.not_first (h : Laid true i j z hs) (hz : ∀ x ∈ z.head?, x.1.isKeep = false → x.2 = false) :
    Laid first i j z hs := by
  cases h with
  | done hgap => exact .done hgap
  | @hunk _ _ _ gap w rest hs hgap hw hne hhead hlast hrest =>
    refine .hunk hgap hw hne (.inr ?_) hlast hrest
    rcases hhead with ⟨-, rfl⟩ | hhead
    · intro x hx
      by_contra hkeep
      have hx' : x ∈ ([] ++ (w ++ rest)).head? := by
        rw [List.nil_append, List.head?_append_of_ne_nil _ hne]
        exact hx
      have hno := hz x hx' (by simpa using hkeep)
      rw [hw x (List.mem_of_mem_head? hx)] at hno
      cases hno
    · exact hhead

theorem add_length_old_cons (c : Change Text) (s : Script Text) (i : Nat) :
    (if c.isInsert then i else i + 1) + (Script.old s).length = i + (Script.old (c :: s)).length := by
  cases c <;> simp [Change.isInsert] <;> omega

theorem add_length_new_cons (c : Change Text) (s : Script Text) (j : Nat) :
    (if c.isDelete then j else j + 1) + (Script.new s).length = j + (Script.new (c :: s)).length := by
  cases c <;> simp [Change.isDelete] <;> omega

/-- A kept line in front that is not marked. -/
theorem Laid.cons_gap (h : Laid true (i + 1) (j + 1) z hs) (hkeep : x.1.isKeep = true) (hx : x.2 = false)
    (hz : ∀ y ∈ z.head?, Touch x y) : Laid true i j (x :: z) hs := by
  have hno : ∀ y ∈ z.head?, y.1.isKeep = true := by
    intro y hy
    by_contra hkeep
    have := (hz y hy (.inr (by simpa using hkeep))).1
    rw [hx] at this
    cases this
  cases h with
  | done hgap => exact .done (List.forall_mem_cons.2 ⟨⟨hkeep, hx⟩, hgap⟩)
  | @hunk _ _ _ gap w rest hs hgap hw hne hhead hlast hrest =>
    have hlen : ∀ n, n + 1 + gap.length = n + (x :: gap).length := by
      intro n
      rw [List.length_cons]
      omega
    rw [hlen, hlen] at hrest ⊢
    refine .hunk (List.forall_mem_cons.2 ⟨⟨hkeep, hx⟩, hgap⟩) hw hne (.inr ?_) hlast hrest
    rcases hhead with ⟨-, rfl⟩ | hhead
    · intro y hy
      refine hno y ?_
      rwa [List.nil_append, List.head?_append_of_ne_nil _ hne]
    · exact hhead

/-- A hunk that begins with the script. -/
theorem Laid.at_front {w rest : List (Change Text × Bool)} (hw : ∀ x ∈ w, x.2 = true) (hne : w ≠ [])
    (hlast : rest = [] ∨ ∀ x ∈ w.getLast?, x.1.isKeep = true)
    (hrest : Laid false (i + (Script.old (w.map Prod.fst)).length) (j + (Script.new (w.map Prod.fst)).length) rest hs) :
    Laid true i j (w ++ rest) (⟨i, j, w.map Prod.fst⟩ :: hs) :=
  @Laid.hunk true i j [] w rest hs (by simp) hw hne (.inl ⟨rfl, rfl⟩) hlast hrest

/-- A change in front that is marked, where the next one is not. -/
theorem Laid.cons_alone (h : Laid false (if x.1.isInsert then i else i + 1) (if x.1.isDelete then j else j + 1) z hs)
    (hx : x.2 = true) (hz : z = [] ∨ x.1.isKeep = true) : Laid true i j (x :: z) (⟨i, j, [x.1]⟩ :: hs) := by
  refine Laid.at_front (List.forall_mem_singleton.2 hx) (List.cons_ne_nil x []) ?_ ?_
  · rcases hz with hz | hz
    · exact .inl hz
    · exact .inr (by simpa using hz)
  · rw [List.map_singleton, ← add_length_old_cons, ← add_length_new_cons]
    exact h

/-- A change in front of a hunk that begins with the script. -/
theorem Laid.cons_hunk (h : Laid true (if x.1.isInsert then i else i + 1) (if x.1.isDelete then j else j + 1) z hs)
    (hx : x.2 = true) (hz : ∃ y ∈ z.head?, y.2 = true) :
    Laid true i j (x :: z) (prepend i j x.1 true hs) := by
  obtain ⟨y, hy, hmark⟩ := hz
  cases h with
  | done hgap =>
    rw [(hgap y (List.mem_of_mem_head? hy)).2] at hmark
    cases hmark
  | @hunk _ _ _ gap w rest hs hgap hw hne hhead hlast hrest =>
    cases gap with
    | cons g gap =>
      obtain rfl : g = y := Option.some.inj hy
      rw [(hgap g List.mem_cons_self).2] at hmark
      cases hmark
    | nil =>
      refine Laid.at_front (List.forall_mem_cons.2 ⟨hx, hw⟩) (List.cons_ne_nil x w) ?_ ?_
      · rwa [List.getLast?_cons_of_ne_nil hne]
      · rw [List.length_nil, Nat.add_zero, Nat.add_zero] at hrest
        rwa [List.map_cons, ← add_length_old_cons, ← add_length_new_cons]

/-- Hunks are collected where they lie. -/
theorem laid_collect (hmark : ∀ x ∈ z, x.1.isKeep = false → x.2 = true) (hchain : z.IsChain Touch) (i j : Nat) :
    Laid true i j z (collect i j (z.map Prod.fst) (z.map Prod.snd)) := by
  induction z generalizing i j with
  | nil => exact .done (by simp)
  | cons x z ih =>
    obtain ⟨hx, hz⟩ := List.forall_mem_cons.1 hmark
    obtain ⟨hhead, hchain⟩ := List.isChain_cons.1 hchain
    have ih := ih hz hchain (if x.1.isInsert then i else i + 1) (if x.1.isDelete then j else j + 1)
    rw [List.map_cons, List.map_cons, collect]
    cases hb : x.2 with
    | false =>
      have hkeep : x.1.isKeep = true := by
        by_contra hkeep
        have := hx (by simpa using hkeep)
        rw [hb] at this
        cases this
      obtain ⟨c, b⟩ := x
      cases c with
      | keep l => exact ih.cons_gap hkeep hb hhead
      | delete l p => cases hkeep
      | insert l p => cases hkeep
    | true =>
      rw [if_pos rfl]
      cases hnext : (z.map Prod.snd).headD false with
      | true =>
        refine ih.cons_hunk hb ?_
        cases z with
        | nil => cases hnext
        | cons y z => exact ⟨y, rfl, hnext⟩
      | false =>
        have hno : ∀ y ∈ z.head?, y.2 = false := by
          intro y hy
          cases z with
          | nil => cases hy
          | cons w z =>
            obtain rfl : w = y := Option.some.inj hy
            exact hnext
        have halone := (ih.not_first fun y hy _ => hno y hy).cons_alone hb ?_
        · cases hrest : collect _ _ (z.map Prod.fst) (z.map Prod.snd) with
          | nil => rwa [hrest] at halone
          | cons h hs => rwa [hrest] at halone
        · cases z with
          | nil => exact .inl rfl
          | cons y z =>
            refine .inr ?_
            by_contra hkeep
            have hy := (hhead y rfl (.inl (by simpa using hkeep))).2
            rw [hno y rfl] at hy
            cases hy

/-! ### What is shown -/

theorem length_nearAfter (reach : Nat) (s : Script Text) : (nearAfter reach s).length = s.length := by
  fun_induction nearAfter reach s <;> simp_all

theorem length_shown (s : Script Text) : (shown s).length = s.length := by
  simp [shown, length_nearAfter]

/-- A change that is not kept is marked, and so is the one behind it. -/
theorem marked_nearAfter (reach : Nat) (s : Script Text) :
    (∀ x ∈ s.zip (nearAfter reach s), x.1.isKeep = false → x.2 = true) ∧
      (s.zip (nearAfter reach s)).IsChain fun x y => x.1.isKeep = false → y.2 = true := by
  induction s generalizing reach with
  | nil => simp
  | cons c s ih =>
    rw [nearAfter]
    cases hc : c.isKeep with
    | true =>
      obtain ⟨hmark, hchain⟩ := ih (reach - 1)
      rw [if_pos rfl, List.zip_cons_cons]
      refine ⟨List.forall_mem_cons.2 ⟨fun h => ?_, hmark⟩, List.isChain_cons.2 ⟨fun y _ h => ?_, hchain⟩⟩
      · rw [hc] at h
        cases h
      · rw [hc] at h
        cases h
    | false =>
      obtain ⟨hmark, hchain⟩ := ih radius
      rw [if_neg Bool.false_ne_true, List.zip_cons_cons]
      refine ⟨List.forall_mem_cons.2 ⟨fun _ => rfl, hmark⟩, List.isChain_cons.2 ⟨fun y hy _ => ?_, hchain⟩⟩
      cases s with
      | nil => cases hy
      | cons d s =>
        rw [nearAfter] at hy
        split at hy
        · obtain rfl := Option.some.inj hy
          rfl
        · obtain rfl := Option.some.inj hy
          rfl

theorem marked_reverse (s : Script Text) :
    (s.zip (nearAfter 0 s.reverse).reverse).IsChain fun x y => y.1.isKeep = false → x.2 = true := by
  have hlen : s.reverse.length = (nearAfter 0 s.reverse).length := (length_nearAfter 0 _).symm
  have hrev := List.reverse_zipWith (f := Prod.mk) hlen
  rw [List.reverse_reverse] at hrev
  rw [List.zip, ← hrev, List.isChain_reverse]
  exact (marked_nearAfter 0 s.reverse).2

/-- Marks from the front and from the back make the marks of a hunk. -/
theorem marked_zipWith {s : Script Text} {as bs : List Bool} (ha : as.length = s.length) (hb : bs.length = s.length)
    (hmark : ∀ x ∈ s.zip as, x.1.isKeep = false → x.2 = true)
    (hfront : (s.zip as).IsChain fun x y => x.1.isKeep = false → y.2 = true)
    (hback : (s.zip bs).IsChain fun x y => y.1.isKeep = false → x.2 = true) :
    (∀ x ∈ s.zip (List.zipWith (· || ·) as bs), x.1.isKeep = false → x.2 = true) ∧
      (s.zip (List.zipWith (· || ·) as bs)).IsChain Touch := by
  induction s generalizing as bs with
  | nil => simp
  | cons c s ih =>
    obtain ⟨a, as, rfl⟩ := List.exists_cons_of_length_eq_add_one ha
    obtain ⟨b, bs, rfl⟩ := List.exists_cons_of_length_eq_add_one hb
    simp only [List.zip_cons_cons, List.zipWith_cons_cons, List.forall_mem_cons,
      List.isChain_cons] at hmark hfront hback ⊢
    obtain ⟨hmarks, hchain⟩ := ih (by simpa using ha) (by simpa using hb) hmark.2 hfront.2 hback.2
    have hc : c.isKeep = false → (a || b) = true := fun h => by rw [hmark.1 h, Bool.true_or]
    refine ⟨⟨hc, hmarks⟩, ?_, hchain⟩
    cases s with
    | nil => simp
    | cons d s =>
      obtain ⟨a', as, rfl⟩ := List.exists_cons_of_length_eq_add_one (by simpa using ha)
      obtain ⟨b', bs, rfl⟩ := List.exists_cons_of_length_eq_add_one (by simpa using hb)
      simp only [List.zip_cons_cons, List.zipWith_cons_cons, List.head?_cons, Option.mem_some_iff, forall_eq'] at *
      rintro (h | h)
      · exact ⟨hc h, by rw [hfront.1 h, Bool.true_or]⟩
      · exact ⟨by rw [hback.1 h, Bool.or_true], hmarks _ List.mem_cons_self h⟩

/-- The hunks of a script lie in it. -/
theorem laid_ofScript (s : Script Text) : Laid true 0 0 (s.zip (shown s)) (ofScript s) := by
  obtain ⟨hmark, hfront⟩ := marked_nearAfter 0 s
  have hback : (nearAfter 0 s.reverse).reverse.length = s.length := by
    rw [List.length_reverse, length_nearAfter, List.length_reverse]
  obtain ⟨hmarks, hchain⟩ := marked_zipWith (length_nearAfter 0 s) hback hmark hfront (marked_reverse s)
  have h := laid_collect hmarks hchain 0 0
  have hlen : (shown s).length = s.length := length_shown s
  rw [show List.zipWith (· || ·) (nearAfter 0 s) (nearAfter 0 s.reverse).reverse = shown s from rfl,
    List.map_fst_zip (by omega), List.map_snd_zip (by omega)] at h
  exact h

theorem Laid.mem_of_mem_changes (hl : Laid first i j z hs) (hh : h ∈ hs) (hc : c ∈ h.changes) : c ∈ z.map Prod.fst := by
  induction hl with
  | done => cases hh
  | hunk _ _ _ _ _ _ ih =>
    rw [List.map_append, List.map_append]
    rcases List.mem_cons.1 hh with rfl | hh
    · exact List.mem_append_right _ (List.mem_append_left _ hc)
    · exact List.mem_append_right _ (List.mem_append_right _ (ih hh))

/-! ### Scripts whose ends are in place -/

/-- Lines that are kept are the same in both texts. -/
theorem old_of_gap (h : ∀ x ∈ z, x.1.isKeep = true ∧ x.2 = false) :
    Script.old (z.map Prod.fst) = Script.new (z.map Prod.fst) ∧ (Script.old (z.map Prod.fst)).length = z.length := by
  induction z with
  | nil => exact ⟨rfl, rfl⟩
  | cons x z ih =>
    obtain ⟨⟨hx, -⟩, hz⟩ := List.forall_mem_cons.1 h
    obtain ⟨hsame, hlen⟩ := ih hz
    obtain ⟨c, b⟩ := x
    cases c with
    | keep l => exact ⟨congrArg (l :: ·) hsame, congrArg (· + 1) hlen⟩
    | delete l p => cases hx
    | insert l p => cases hx

theorem onPlace_of_keep (h : c.isKeep = true) (i j : Nat) : c.OnPlace i j := by
  cases c with
  | keep l => trivial
  | delete l p => cases h
  | insert l p => cases h

/-- The hunks are in place just if the first change and the last one are. -/
theorem Laid.placed_iff (h : Laid first i j z hs) (hij : first = true → i = 0 ∧ j = 0) :
    (∀ h ∈ hs, h.Placed) ↔ (first = true → ∀ x ∈ z.head?, x.1.OnPlace i j) ∧
      ∀ x ∈ z.getLast?, x.1.OnPlace (i + (Script.old (z.map Prod.fst)).length)
        (j + (Script.new (z.map Prod.fst)).length) := by
  induction h with
  | done hgap =>
    refine iff_of_true (by simp) ⟨fun _ x hx => ?_, fun x hx => ?_⟩
    · exact onPlace_of_keep (hgap x (List.mem_of_mem_head? hx)).1 _ _
    · exact onPlace_of_keep (hgap x (List.mem_of_getLast? hx)).1 _ _
  | @hunk first i j gap z rest hs hgap hz hne hhead hlast hrest ih =>
    have ha : z.head? = some (z.head hne) := List.head?_eq_some_head hne
    have hb : z.getLast? = some (z.getLast hne) := List.getLast?_eq_some_getLast hne
    generalize z.head hne = a at ha
    generalize z.getLast hne = b at hb
    obtain ⟨hsame, hlen⟩ := old_of_gap hgap
    -- the first change decides on the start
    have hstart : a.1.OnPlace (i + gap.length) (j + gap.length) ↔
        (first = true → ∀ x ∈ (gap ++ (z ++ rest)).head?, x.1.OnPlace i j) := by
      cases gap with
      | nil =>
        rw [List.nil_append, List.head?_append_of_ne_nil _ hne, ha]
        rcases hhead with ⟨rfl, -⟩ | hhead
        · simp
        · have hkeep := onPlace_of_keep (hhead a ha)
          exact iff_of_true (hkeep _ _) (by simpa using fun _ => hkeep i j)
      | cons g gap =>
        have hkeep : a.1.isKeep = true := hhead.resolve_left (by simp) a ha
        refine iff_of_true (onPlace_of_keep hkeep _ _) fun _ x hx => ?_
        obtain rfl : g = x := Option.some.inj hx
        exact onPlace_of_keep (hgap g List.mem_cons_self).1 _ _
    -- and the last one of the script on the end, which the hunk has if nothing is behind it
    have hend : (b.1.OnPlace (i + gap.length + (Script.old (z.map Prod.fst)).length)
          (j + gap.length + (Script.new (z.map Prod.fst)).length) ∧ ∀ h ∈ hs, h.Placed) ↔
        ∀ x ∈ (gap ++ (z ++ rest)).getLast?,
          x.1.OnPlace (i + (Script.old ((gap ++ (z ++ rest)).map Prod.fst)).length)
            (j + (Script.new ((gap ++ (z ++ rest)).map Prod.fst)).length) := by
      have hne' : z ++ rest ≠ [] := by simp [hne]
      rw [ih (by simp), List.getLast?_append_of_ne_nil _ hne', List.map_append, List.map_append, Script.old_append,
        Script.old_append, Script.new_append, Script.new_append, ← hsame, List.length_append, List.length_append,
        List.length_append, List.length_append, hlen, ← Nat.add_assoc, ← Nat.add_assoc, ← Nat.add_assoc,
        ← Nat.add_assoc]
      cases rest with
      | nil =>
        rw [List.append_nil, hb]
        simp
      | cons y rest =>
        have hkeep : b.1.isKeep = true := hlast.resolve_left (by simp) b hb
        rw [List.getLast?_append_of_ne_nil _ (List.cons_ne_nil y rest)]
        simp [onPlace_of_keep hkeep]
    have hhunk := Hunk.placed_iff (h := ⟨i + gap.length, j + gap.length, z.map Prod.fst⟩) (c := a.1) (d := b.1)
      (by rw [List.head?_map, ha]; rfl) (by rw [List.getLast?_map, hb]; rfl) fun hkeep => by
        rcases hhead with ⟨hfirst, rfl⟩ | hhead
        · simpa using hij hfirst
        · rw [hhead a ha] at hkeep
          cases hkeep
    rw [List.forall_mem_cons, hhunk, hstart, and_assoc, hend]

theorem map_fst_shown (s : Script Text) : (s.zip (shown s)).map Prod.fst = s :=
  List.map_fst_zip (length_shown s).ge

theorem placed_ofScript_iff (s : Script Text) : (∀ h ∈ ofScript s, h.Placed) ↔ s.EndsOnPlace := by
  have hlen := length_shown s
  have hends : (∀ x ∈ (s.zip (shown s)).head?, x.1.OnPlace 0 0) ∧
      (∀ x ∈ (s.zip (shown s)).getLast?, x.1.OnPlace (Script.old s).length (Script.new s).length) ↔
        s.EndsOnPlace := by
    have hhead : s.head? = (s.zip (shown s)).head?.map Prod.fst := by rw [← List.head?_map, map_fst_shown]
    have hlast : s.getLast? = (s.zip (shown s)).getLast?.map Prod.fst := by rw [← List.getLast?_map, map_fst_shown]
    rw [Script.EndsOnPlace, hhead, hlast]
    simp only [Option.mem_def, Option.map_eq_some_iff, forall_exists_index, and_imp, forall_apply_eq_imp_iff₂]
  rw [(laid_ofScript s).placed_iff fun _ => ⟨rfl, rfl⟩, map_fst_shown, Nat.zero_add, Nat.zero_add,
    forall_prop_of_true rfl, hends]

end Hunk

/-! ### Reading hunks -/

namespace Patch

variable {hs : List Hunk} {p q : Patch} {x : Text} {out : List Text} {i j : Nat} {first : Bool}
  {z : List (Change Text × Bool)}

theorem enter?_eq_some_iff {old new : Nat × Nat} : p.enter? old new = some q ↔
    (p.oldLeft = 0 ∧ p.newLeft = 0 ∧ p.passed ≤ old.1 ∧ old.1 - p.passed ≤ p.rest.length ∧
      new.1 = p.out.length + (old.1 - p.passed)) ∧
    q = ⟨p.rest.drop (old.1 - p.passed), old.1, p.out ++ p.rest.take (old.1 - p.passed), old.2, new.2⟩ := by
  unfold enter?
  dsimp only
  split
  · next h => rw [Option.some_inj, eq_comm, and_iff_right h]
  · next h => exact ⟨fun he => (by cases he), fun he => absurd he.1 h⟩

/-- Where the header says where the hunk stands, its changes are made if it counts enough lines. -/
theorem foldlM_rows_append (h : Hunk) (ls gap rest out : List Text) (hold : h.oldRange.1 = i + gap.length)
    (hnew : h.newRange.1 = out.length + gap.length) :
    (rows h ++ ls).foldlM step ⟨gap ++ (Script.old h.changes ++ rest), i, out, 0, 0⟩ =
      if (Script.old h.changes).length ≤ h.oldRange.2 - h.oldRange.1 ∧
          (Script.new h.changes).length ≤ h.newRange.2 - h.newRange.1 then
        ls.foldlM step ⟨rest, i + gap.length + (Script.old h.changes).length, out ++ gap ++ Script.new h.changes,
          h.oldRange.2 - h.oldRange.1 - (Script.old h.changes).length,
          h.newRange.2 - h.newRange.1 - (Script.new h.changes).length⟩
      else none := by
  have henter : step ⟨gap ++ (Script.old h.changes ++ rest), i, out, 0, 0⟩ (headerRow h) =
      some ⟨Script.old h.changes ++ rest, i + gap.length, out ++ gap, h.oldRange.2 - h.oldRange.1,
        h.newRange.2 - h.newRange.1⟩ := by
    rw [step_headerRow, enter?_eq_some_iff]
    simp [hold, hnew]
  rw [rows, List.cons_append, List.foldlM_cons, henter]
  show (h.changes.map row ++ ls).foldlM step _ = _
  rw [List.foldlM_append, foldlM_step_rows]
  split <;> rfl

/-- What is left of a hunk is left at the next header and at the end. -/
theorem left_eq_zero (h : ((hs.flatMap rows).foldlM step p).bind finish? = some x) :
    p.oldLeft = 0 ∧ p.newLeft = 0 := by
  cases hs with
  | nil =>
    have hfinish : p.finish? = some x := h
    unfold finish? at hfinish
    split at hfinish
    · assumption
    · cases hfinish
  | cons g hs =>
    rw [List.flatMap_cons, rows, List.cons_append, List.foldlM_cons, step_headerRow] at h
    cases hq : p.enter? (g.oldRange.1, g.oldRange.2 - g.oldRange.1) (g.newRange.1, g.newRange.2 - g.newRange.1) with
    | none =>
      rw [hq] at h
      cases h
    | some q =>
      obtain ⟨⟨hold, hnew, -⟩, -⟩ := enter?_eq_some_iff.1 hq
      exact ⟨hold, hnew⟩

/-- A first change that has noted a place has noted it in one of the texts only. -/
theorem start_eq_or (h : Hunk) : h.oldRange.1 = h.oldStart ∨ h.newRange.1 = h.newStart := by
  rw [Hunk.oldRange, Hunk.newRange]
  rcases hc : h.changes.head? with _ | c
  · exact .inl rfl
  · cases c with
    | keep l => exact .inl rfl
    | delete l p => exact .inl rfl
    | insert l p => exact .inr rfl

/-- A hunk that is in place makes its changes, and any other hunk stops the reader. -/
theorem foldlM_hunk_iff (h : Hunk) (hs : List Hunk) (kept rest out : List Text) (hold : h.oldStart = i + kept.length)
    (hnew : h.newStart = out.length + kept.length) :
    ((rows h ++ hs.flatMap rows).foldlM step ⟨kept ++ (Script.old h.changes ++ rest), i, out, 0, 0⟩).bind finish? =
        some x ↔
      h.Placed ∧ ((hs.flatMap rows).foldlM step ⟨rest, i + kept.length + (Script.old h.changes).length,
        out ++ kept ++ Script.new h.changes, 0, 0⟩).bind finish? = some x := by
  have hfold := foldlM_rows_append (i := i) h (hs.flatMap rows) kept rest out
  constructor
  · intro heq
    obtain ⟨q, hq⟩ : ∃ q, step ⟨kept ++ (Script.old h.changes ++ rest), i, out, 0, 0⟩ (headerRow h) = some q := by
      refine Option.ne_none_iff_exists'.1 fun hq => ?_
      rw [rows, List.cons_append, List.foldlM_cons, hq] at heq
      cases heq
    rw [step_headerRow, enter?_eq_some_iff] at hq
    obtain ⟨⟨-, -, hle, -, hpos⟩, -⟩ := hq
    dsimp only at hle hpos
    obtain ⟨holdRange, hnewRange⟩ : h.oldRange.1 = i + kept.length ∧ h.newRange.1 = out.length + kept.length := by
      rcases start_eq_or h with hstart | hstart <;> omega
    rw [hfold holdRange hnewRange] at heq
    split at heq
    · obtain ⟨hzero, hzero'⟩ := left_eq_zero heq
      dsimp only at hzero hzero'
      rw [hzero, hzero'] at heq
      exact ⟨⟨by omega, by omega, by omega, by omega⟩, heq⟩
    · cases heq
  · rintro ⟨⟨holdStart, holdCount, hnewStart, hnewCount⟩, heq⟩
    rwa [hfold (by omega) (by omega), if_pos ⟨holdCount.ge, hnewCount.ge⟩, holdCount, hnewCount, Nat.sub_self,
      Nat.sub_self]

/-- Hunks that lie in a script lead to its second text if they are in place, and nowhere otherwise. -/
theorem foldlM_laid_iff (hl : Hunk.Laid first i j z hs) (hout : out.length = j) :
    ((hs.flatMap rows).foldlM step ⟨Script.old (z.map Prod.fst), i, out, 0, 0⟩).bind finish? = some x ↔
      (∀ h ∈ hs, h.Placed) ∧ x = (out ++ Script.new (z.map Prod.fst)).flatten := by
  induction hl generalizing out with
  | @done first i j z hgap =>
    rw [(Hunk.old_of_gap hgap).1]
    show (if 0 = 0 ∧ 0 = 0 then some (out ++ Script.new (z.map Prod.fst)).flatten else none) = some x ↔ _
    simp [eq_comm]
  | @hunk first i j gap z rest hs hgap hz hne hhead hlast hrest ih =>
    obtain ⟨hsame, hlen⟩ := Hunk.old_of_gap hgap
    have hhunk := foldlM_hunk_iff (i := i) (x := x) ⟨i + gap.length, j + gap.length, z.map Prod.fst⟩ hs
      (Script.old (gap.map Prod.fst)) (Script.old (rest.map Prod.fst)) out (by rw [hlen]) (by rw [hlen, hout])
    have hnext : (out ++ Script.old (gap.map Prod.fst) ++ Script.new (z.map Prod.fst)).length =
        j + gap.length + (Script.new (z.map Prod.fst)).length := by
      rw [List.length_append, List.length_append, hlen, hout]
    rw [hlen] at hhunk
    rw [List.map_append, List.map_append, Script.old_append, Script.old_append, Script.new_append, Script.new_append,
      List.flatMap_cons, List.forall_mem_cons, hhunk, ih hnext, and_assoc, ← hsame, List.append_assoc,
      List.append_assoc]

/-- A diff can be applied to the first text of its script just if the ends of the script are in place, and then it
leads to the second one. -/
theorem applied?_render_iff {path t : Text} {s : Script Text} (hs : ∀ c ∈ s, IsRow (lineOf c))
    (ht : Diff.linesOf t = Script.old s) :
    applied? path (Diff.render path s) t = some x ↔ s.EndsOnPlace ∧ x = (Script.new s).flatten := by
  have hlaid := Hunk.laid_ofScript s
  have hrows : ∀ h ∈ Hunk.ofScript s, ∀ c ∈ h.changes, IsRow (lineOf c) := fun h hh c hc =>
    hs c (Hunk.map_fst_shown s ▸ hlaid.mem_of_mem_changes hh hc)
  have hrender : Diff.render path s = header path ++ (Hunk.ofScript s).flatMap Hunk.render := by
    unfold Diff.render header
    exact List.append_cons _ _ _
  have hiff := foldlM_laid_iff (x := x) hlaid (show ([] : List Text).length = 0 from rfl)
  rw [Hunk.map_fst_shown] at hiff
  rw [hrender, applied?_eq hrows, ht, hiff, Hunk.placed_ofScript_iff, List.nil_append]

end Patch

end TunnelConf
