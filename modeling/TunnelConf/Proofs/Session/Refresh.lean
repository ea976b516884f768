import Mathlib.Data.List.Count
import TunnelConf.Proofs.Scan.Autofill
import TunnelConf.Session

/-!
# Refreshing a text again and again

A refresh writes a key into the first line with an empty private key (`refresh_of_firstVacant`) and
leaves a text without such a line alone (`refresh_of_not_mem`). One line fewer is empty behind it, so
by induction the calls fill the empty lines one after the other, each with the key that it has drawn
(`ofVisual_afterRefreshes`), and once none is empty nothing happens any more.
-/

namespace TunnelConf

open Text Line

/-! ### Filling in order -/

/-- Fills the first vacant elements, one after the other, with `xs`. -/
def fillFirst {α β : Type} (vacant : α → Bool) (fill : β → α → α) : List β → List α → List α
  | [], ls => ls
  | _ :: _, [] => []
  | x :: xs, l :: ls =>
    if vacant l then fill x l :: fillFirst vacant fill xs ls else l :: fillFirst vacant fill (x :: xs) ls

section FillFirst
variable {α β : Type} {vacant : α → Bool} {fill : β → α → α}

@[simp] theorem fillFirst_nil (ls : List α) : fillFirst vacant fill [] ls = ls := by
  rw [fillFirst]

@[simp] theorem fillFirst_nil_right (xs : List β) : fillFirst vacant fill xs [] = [] := by
  cases xs with
  | nil => rfl
  | cons x xs => rfl

theorem fillFirst_cons_of_vacant {l : α} (h : vacant l = true) (x : β) (xs : List β) (ls : List α) :
    fillFirst vacant fill (x :: xs) (l :: ls) = fill x l :: fillFirst vacant fill xs ls := by
  rw [fillFirst, if_pos h]

theorem fillFirst_cons_of_not_vacant {l : α} (h : ¬ vacant l = true) (xs : List β) (ls : List α) :
    fillFirst vacant fill xs (l :: ls) = l :: fillFirst vacant fill xs ls := by
  cases xs with
  | nil => rw [fillFirst_nil, fillFirst_nil]
  | cons x xs => rw [fillFirst, if_neg h]

theorem fillFirst_singleton {before after : List α} {l : α} (hb : ∀ m ∈ before, ¬ vacant m = true)
    (hl : vacant l = true) (x : β) :
    fillFirst vacant fill [x] (before ++ l :: after) = before ++ fill x l :: after := by
  induction before with
  | nil => rw [List.nil_append, fillFirst_cons_of_vacant hl, fillFirst_nil, List.nil_append]
  | cons m before ih =>
    obtain ⟨hm, hb⟩ := List.forall_mem_cons.1 hb
    rw [List.cons_append, fillFirst_cons_of_not_vacant hm, ih hb, List.cons_append]

theorem fillFirst_of_none {ls : List α} (h : ∀ l ∈ ls, ¬ vacant l = true) (xs : List β) :
    fillFirst vacant fill xs ls = ls := by
  induction ls with
  | nil => exact fillFirst_nil_right xs
  | cons l ls ih =>
    obtain ⟨hl, hls⟩ := List.forall_mem_cons.1 h
    rw [fillFirst_cons_of_not_vacant hl, ih hls]

/-- There is no use for more than there is room for. -/
theorem fillFirst_take (xs : List β) (ls : List α) :
    fillFirst vacant fill (xs.take (ls.countP vacant)) ls = fillFirst vacant fill xs ls := by
  induction ls generalizing xs with
  | nil => rw [fillFirst_nil_right, fillFirst_nil_right]
  | cons l ls ih =>
    by_cases hl : vacant l = true
    · cases xs with
      | nil => rw [List.take_nil]
      | cons x xs =>
        rw [List.countP_cons_of_pos hl, List.take_succ_cons, fillFirst_cons_of_vacant hl,
          fillFirst_cons_of_vacant hl, ih]
    · rw [List.countP_cons_of_neg hl, fillFirst_cons_of_not_vacant hl, fillFirst_cons_of_not_vacant hl, ih]

variable (hfill : ∀ x l, vacant l = true → ¬ vacant (fill x l) = true)
include hfill

/-- What is filled is passed over from then on. -/
theorem fillFirst_append (xs ys : List β) (ls : List α) :
    fillFirst vacant fill (xs ++ ys) ls = fillFirst vacant fill ys (fillFirst vacant fill xs ls) := by
  induction ls generalizing xs with
  | nil => simp only [fillFirst_nil_right]
  | cons l ls ih =>
    by_cases hl : vacant l = true
    · cases xs with
      | nil => rw [List.nil_append, fillFirst_nil]
      | cons x xs =>
        rw [List.cons_append, fillFirst_cons_of_vacant hl, fillFirst_cons_of_vacant hl,
          fillFirst_cons_of_not_vacant (hfill x l hl), ih]
    · rw [fillFirst_cons_of_not_vacant hl, fillFirst_cons_of_not_vacant hl, fillFirst_cons_of_not_vacant hl, ih]

theorem countP_fillFirst (xs : List β) (ls : List α) :
    (fillFirst vacant fill xs ls).countP vacant = ls.countP vacant - xs.length := by
  induction ls generalizing xs with
  | nil => simp
  | cons l ls ih =>
    by_cases hl : vacant l = true
    · cases xs with
      | nil => rw [fillFirst_nil, List.length_nil, Nat.sub_zero]
      | cons x xs =>
        rw [fillFirst_cons_of_vacant hl, List.countP_cons_of_neg (hfill x l hl),
          List.countP_cons_of_pos hl, ih, List.length_cons]
        omega
    · rw [fillFirst_cons_of_not_vacant hl, List.countP_cons_of_neg hl, List.countP_cons_of_neg hl, ih]

end FillFirst

/-! ### Lines with an empty private key -/

namespace Line

def isVacant (l : Line) : Bool := privateValue? l.body = some []

/-- The line with a key behind it, and a space in front of the key if the line ends with the equals
sign. -/
def withKey (k : Key) (l : Line) : Line :=
  { l with body := l.body ++ if l.body.getLast? = some '=' then ' ' :: k.encode else k.encode }

theorem withKey_eq {p : Pair} {a : Assignment} (h : p.Vacant a) (k : Key) (e : Ending) :
    withKey k ⟨p.render, e⟩ = ⟨(p.withKey a k.encode).render, e⟩ := by
  rw [withKey, h.render_withKey, h.written_eq]

theorem privateValue?_withKey {l : Line} (h : l.isVacant = true) (k : Key) :
    privateValue? (l.withKey k).body = some k.encode := by
  obtain ⟨body, e⟩ := l
  obtain ⟨p, a, rfl, hp⟩ := privateValue?_eq_some_nil_iff.1 (of_decide_eq_true h)
  rw [withKey_eq hp]
  exact hp.privateValue?_withKey k

theorem not_isVacant_withKey (k : Key) (l : Line) (h : l.isVacant = true) :
    ¬ (l.withKey k).isVacant = true := by
  intro hv
  have hk := of_decide_eq_true hv
  rw [privateValue?_withKey h] at hk
  exact k.encode_ne_nil (Option.some.inj hk)

/-- To fill lines in is to fill the empty ones among the values of private keys. -/
theorem filterMap_fillFirst (keys : List Key) (ls : List Line) :
    (fillFirst isVacant withKey keys ls).filterMap (fun l => privateValue? l.body) =
      fillFirst List.isEmpty (fun k _ => k.encode) keys (ls.filterMap fun l => privateValue? l.body) := by
  induction ls generalizing keys with
  | nil => simp
  | cons l ls ih =>
    by_cases hl : l.isVacant = true
    · have hnil : privateValue? l.body = some [] := of_decide_eq_true hl
      cases keys with
      | nil => rw [fillFirst_nil, fillFirst_nil]
      | cons k keys =>
        have hempty : List.isEmpty ([] : Text) = true := rfl
        simp only [fillFirst_cons_of_vacant hl, List.filterMap_cons, privateValue?_withKey hl k, hnil,
          fillFirst_cons_of_vacant hempty, ih]
    · rw [fillFirst_cons_of_not_vacant hl]
      cases hv : privateValue? l.body with
      | none => simp only [List.filterMap_cons, hv, ih]
      | some v =>
        have hne : ¬ v.isEmpty = true := by
          intro he
          rw [List.isEmpty_iff.1 he] at hv
          exact hl (decide_eq_true hv)
        simp only [List.filterMap_cons, hv, fillFirst_cons_of_not_vacant hne, ih]

end Line

theorem count_privateValues (t : Text) : (privateValues t).count [] = (ofVisual t).countP isVacant := by
  rw [privateValues_eq]
  induction ofVisual t with
  | nil => rfl
  | cons l ls ih =>
    by_cases hl : l.isVacant = true
    · have hnil : privateValue? l.body = some [] := of_decide_eq_true hl
      simp only [List.filterMap_cons, hnil, List.count_cons_self, List.countP_cons_of_pos hl, ih]
    · rw [List.countP_cons_of_neg hl, ← ih]
      cases hv : privateValue? l.body with
      | none => simp only [List.filterMap_cons, hv]
      | some v =>
        have hne : v ≠ [] := by rintro rfl; exact hl (decide_eq_true hv)
        simp only [List.filterMap_cons, hv, List.count_cons_of_ne hne]

theorem FirstVacant.ofVisual_filled_eq {t : Text} {before after : List Line} {p : Pair} {a : Assignment}
    {e : Ending} (h : FirstVacant t before p a e after) (k : Key) :
    ofVisual (filled before p a e after k) = fillFirst isVacant withKey [k] (ofVisual t) := by
  have hb : ∀ l ∈ before, ¬ l.isVacant = true := fun l hl hv => h.none_before l hl (of_decide_eq_true hv)
  have hp : isVacant ⟨p.render, e⟩ = true := decide_eq_true h.vacant.privateValue?_render
  rw [h.ofVisual_filled, h.lines, fillFirst_singleton hb hp, withKey_eq h.vacant]

/-! ### Bytes drawn -/

/-- A scan draws a key for an empty value only. -/
theorem Scan.random_ofText (t : Text) (r : RandomStream) :
    (ofText t r).2 = r.advance (32 * min 1 ((privateValues t).count [])) := by
  by_cases h : [] ∈ privateValues t
  · obtain ⟨before, p, a, e, after, hf⟩ := exists_firstVacant h
    have hpos := List.count_pos_iff.2 h
    have hmin : min 1 ((privateValues t).count []) = 1 := by omega
    rw [hf.ofText, hmin]
    rfl
  · rw [ofText_of_not_mem h, List.count_eq_zero_of_not_mem h]
    rfl

namespace Session

/-! ### One refresh -/

theorem refresh_of_firstVacant {t : Text} {before after : List Line} {p : Pair} {a : Assignment}
    {e : Ending} (h : FirstVacant t before p a e after) (r : RandomStream) :
    let k := (KeyPair.generate r).1.secret
    let second := Scan.ofText (FirstVacant.filled before p a e after k) (r.advance 32)
    ∃ events, refresh ⟨.idle, r⟩ t =
      (⟨.refreshed ⟨second.1, some (FirstVacant.splice before p a k)⟩,
        some (FirstVacant.filled before p a e after k), [], events⟩, ⟨.idle, second.2⟩) := by
  intro k second
  refine ⟨(Scan.ofText t r).1.events ++ .autofillApplied :: second.1.events, ?_⟩
  have hrandom : (Scan.ofText t r).2 = r.advance 32 := by
    rw [h.ofText]
    rfl
  simp only [refresh, perform, enter, decide_true, performAll, h.autofill_ofText, h.apply, hrandom]
  simp only [List.map_nil, List.flatMap_nil, List.append_nil, release, k, second]

theorem refresh_of_not_mem {t : Text} (h : [] ∉ privateValues t) (r : RandomStream) :
    refresh ⟨.idle, r⟩ t =
      (⟨.refreshed ⟨Scan.build t none, none⟩, some t, [], [.scanned]⟩, ⟨.idle, r⟩) := by
  have hnone : (Scan.build t none).autofill = none := by simp [Scan.build]
  simp only [refresh, perform, enter, decide_true, Scan.ofText_of_not_mem h, hnone, Scan.events, release]
  rfl

/-- What a refresh of any text does. The second scan draws bytes as well if another value is empty. -/
theorem exists_refresh (t : Text) (r : RandomStream) :
    let n := (privateValues t).count []
    ∃ done t' events, refresh ⟨.idle, r⟩ t =
        (⟨.refreshed done, some t', [], events⟩, ⟨.idle, r.advance (32 * (min 1 n + min 1 (n - 1)))⟩) ∧
      (done.changed = true ↔ 0 < n) ∧
      ofVisual t' = fillFirst isVacant withKey [(KeyPair.generate r).1.secret] (ofVisual t) := by
  intro n
  by_cases h : [] ∈ privateValues t
  · obtain ⟨before, p, a, e, after, hf⟩ := exists_firstVacant h
    obtain ⟨events, heq⟩ := refresh_of_firstVacant hf r
    have hpos : 0 < n := List.count_pos_iff.2 h
    have hlines := hf.ofVisual_filled_eq (KeyPair.generate r).1.secret
    have hleft := count_privateValues (FirstVacant.filled before p a e after (KeyPair.generate r).1.secret)
    rw [hlines, countP_fillFirst not_isVacant_withKey, ← count_privateValues] at hleft
    have hadvance : 32 + 32 * min 1 (n - 1) = 32 * (min 1 n + min 1 (n - 1)) := by omega
    rw [Scan.random_ofText, hleft, RandomStream.advance_advance, List.length_singleton, hadvance] at heq
    exact ⟨_, _, events, heq, ⟨fun _ => hpos, fun _ => rfl⟩, hlines⟩
  · have hzero : n = 0 := List.count_eq_zero_of_not_mem h
    have hnone : ∀ l ∈ ofVisual t, ¬ l.isVacant = true := by
      rw [← List.countP_eq_zero, ← count_privateValues]
      exact hzero
    refine ⟨⟨Scan.build t none, none⟩, t, [.scanned], ?_, ?_, (fillFirst_of_none hnone _).symm⟩
    · rw [refresh_of_not_mem h, hzero]
      rfl
    · rw [hzero]
      constructor
      · intro hchanged; cases hchanged
      · intro hlt; cases hlt

/-! ### One refresh after the other -/

/-- The text and the session behind a refresh of the text. -/
def afterRefresh (p : Text × Session) : Text × Session :=
  ((p.2.refresh p.1).1.buffer.getD p.1, (p.2.refresh p.1).2)

section Run
variable (t : Text) (r : RandomStream)

/-- The text and the session behind a number of refreshes. -/
def afterRefreshes : Nat → Text × Session
  | 0 => (t, start r)
  | k + 1 => afterRefresh (afterRefreshes k)

/-- The answer to the refresh that comes behind `k` others. -/
def refreshAnswer (k : Nat) : Answer := ((afterRefreshes t r k).2.refresh (afterRefreshes t r k).1).1

/-- The key that this refresh generates, if it does: that of the next bytes when it begins. -/
def drawnKey (k : Nat) : Key := (KeyPair.generate (afterRefreshes t r k).2.random).1.secret

theorem afterRefreshes_spec (k : Nat) :
    let n := (privateValues t).count []
    (afterRefreshes t r k).2 = ⟨.idle, r.advance (32 * (min k n + min k (n - 1)))⟩ ∧
      ofVisual (afterRefreshes t r k).1 =
        fillFirst isVacant withKey ((List.range k).map (drawnKey t r)) (ofVisual t) := by
  intro n
  induction k with
  | zero =>
    refine ⟨?_, ?_⟩
    · rw [Nat.zero_min, Nat.zero_min]
      rfl
    · rw [List.range_zero, List.map_nil, fillFirst_nil]
      rfl
  | succ k ih =>
    obtain ⟨hsession, hlines⟩ := ih
    obtain ⟨done, t', events, hrefresh, -, ht'⟩ :=
      exists_refresh (afterRefreshes t r k).1 (afterRefreshes t r k).2.random
    have hidle : (afterRefreshes t r k).2 = ⟨.idle, (afterRefreshes t r k).2.random⟩ := by rw [hsession]
    have hleft : (privateValues (afterRefreshes t r k).1).count [] = n - k := by
      rw [count_privateValues, hlines, countP_fillFirst not_isVacant_withKey, ← count_privateValues,
        List.length_map, List.length_range]
    have hnext : afterRefreshes t r (k + 1) = (t', ⟨.idle, (afterRefreshes t r k).2.random.advance
        (32 * (min 1 (n - k) + min 1 (n - k - 1)))⟩) := by
      rw [← hidle, hleft] at hrefresh
      rw [afterRefreshes, afterRefresh, hrefresh]
      rfl
    refine ⟨?_, ?_⟩
    · have hsum : 32 * (min k n + min k (n - 1)) + 32 * (min 1 (n - k) + min 1 (n - k - 1)) =
          32 * (min (k + 1) n + min (k + 1) (n - 1)) := by omega
      rw [hnext, hsession, RandomStream.advance_advance, hsum]
    · rw [hnext, List.range_succ, List.map_append, fillFirst_append not_isVacant_withKey, ← hlines]
      exact ht'

/-- Every line that a call before has not filled is empty still. -/
theorem count_afterRefreshes (k : Nat) :
    (privateValues (afterRefreshes t r k).1).count [] = (privateValues t).count [] - k := by
  rw [count_privateValues, (afterRefreshes_spec t r k).2, countP_fillFirst not_isVacant_withKey,
    ← count_privateValues, List.length_map, List.length_range]

theorem ofVisual_afterRefreshes (k : Nat) :
    ofVisual (afterRefreshes t r k).1 = fillFirst isVacant withKey
      ((List.range (min k ((privateValues t).count []))).map (drawnKey t r)) (ofVisual t) := by
  rw [(afterRefreshes_spec t r k).2, ← fillFirst_take, ← count_privateValues, ← List.map_take,
    List.take_range, Nat.min_comm]

/-- Behind as many calls as there are empty lines nothing changes any more. -/
theorem afterRefreshes_add (j : Nat) :
    afterRefreshes t r ((privateValues t).count [] + j) = afterRefreshes t r ((privateValues t).count []) := by
  induction j with
  | zero => rfl
  | succ j ih =>
    set n := (privateValues t).count []
    have hzero : (privateValues (afterRefreshes t r n).1).count [] = 0 := by
      rw [count_afterRefreshes, Nat.sub_self]
    have hidle := (afterRefreshes_spec t r n).1
    have hnext := refresh_of_not_mem (List.count_eq_zero.1 hzero) (afterRefreshes t r n).2.random
    have hsame : (⟨.idle, (afterRefreshes t r n).2.random⟩ : Session) = (afterRefreshes t r n).2 := by
      rw [hidle]
    rw [hsame] at hnext
    rw [← Nat.add_assoc, afterRefreshes, ih, afterRefresh, hnext]
    rfl

end Run

/-- Refreshes of a text with `n` empty private keys. Each call is answered, and it changes the text if
not all are filled. Behind `k` calls the first of the empty lines, `k` or else all of them, hold the keys
that these calls have drawn, and nothing else in the text is new. From the `n`-th call on text, session
and answers stay the same. -/
theorem refreshes_fill_in_order (t : Text) (r : RandomStream) (k : Nat) :
    let n := (privateValues t).count []
    let keys := (List.range (min k n)).map (drawnKey t r)
    let now := (afterRefreshes t r k).1
    (∃ done, (refreshAnswer t r k).reply = .refreshed done ∧ (done.changed = true ↔ k < n)) ∧
    privateValues now = fillFirst List.isEmpty (fun key _ => key.encode) keys (privateValues t) ∧
    ofVisual now = fillFirst isVacant withKey keys (ofVisual t) ∧
    (afterRefreshes t r k).2 = ⟨.idle, r.advance (32 * (min k n + min k (n - 1)))⟩ ∧
    ∀ j, afterRefreshes t r (n + j) = afterRefreshes t r n ∧
      refreshAnswer t r (n + j) = refreshAnswer t r n := by
  intro n keys now
  have hlines : ofVisual now = fillFirst isVacant withKey keys (ofVisual t) := ofVisual_afterRefreshes t r k
  have hsession := (afterRefreshes_spec t r k).1
  refine ⟨?_, ?_, hlines, hsession, fun j => ⟨afterRefreshes_add t r j, ?_⟩⟩
  · obtain ⟨done, t', events, hrefresh, hchanged, -⟩ := exists_refresh now (afterRefreshes t r k).2.random
    have hidle : (afterRefreshes t r k).2 = ⟨.idle, (afterRefreshes t r k).2.random⟩ := by rw [hsession]
    rw [← hidle] at hrefresh
    refine ⟨done, ?_, ?_⟩
    · rw [refreshAnswer, hrefresh]
    · rw [hchanged, count_afterRefreshes]
      omega
  · rw [privateValues_eq, privateValues_eq, hlines, filterMap_fillFirst]
  · rw [refreshAnswer, refreshAnswer, afterRefreshes_add]

end Session

end TunnelConf
