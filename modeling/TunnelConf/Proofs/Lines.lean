import TunnelConf.Line
import TunnelConf.Proofs.Text.Parts

/-!
# The lines of a text

`Proper` says which lists of lines a text can have: `proper_ofVisual` and `ofVisual_of_proper`,
cutting is one to one between texts and these lists. So a text is edited by editing its lines:
`Proper.replace` puts another body into a line, `ofVisual_append_lf` continues a text behind an LF.
`pick` reads the lines one by one at their offsets; its laws carry what is found in a text over to
the edited text.
-/

namespace TunnelConf.Line

/-- `t` contains no line ending. -/
def IsBody (t : Text) : Prop := ∀ c ∈ t, c ≠ '\r' ∧ c ≠ '\n'

theorem isBody_nil : IsBody [] := by simp [IsBody]

theorem isBody_append {a b : Text} : IsBody (a ++ b) ↔ IsBody a ∧ IsBody b := by
  simp only [IsBody, List.mem_append]
  exact ⟨fun h => ⟨fun c hc => h c (.inl hc), fun c hc => h c (.inr hc)⟩,
    fun ⟨ha, hb⟩ c hc => hc.elim (ha c) (hb c)⟩

theorem IsBody.cr_not_mem {t : Text} (h : IsBody t) : '\r' ∉ t := fun hmem => (h _ hmem).1 rfl

theorem IsBody.lf_not_mem {t : Text} (h : IsBody t) : '\n' ∉ t := fun hmem => (h _ hmem).2 rfl

theorem isBody_cons {c : Char} {t : Text} :
    IsBody (c :: t) ↔ (c ≠ '\r' ∧ c ≠ '\n') ∧ IsBody t := by
  simp [IsBody]

/-- `m` can follow `l`: `l` has an ending, and a lone CR does not stand before an LF. -/
def Precedes (l m : Line) : Prop :=
  l.ending ≠ .none ∧ ¬ (l.ending = .cr ∧ m.body = [] ∧ m.ending = .lf)

/-- The lists of lines that texts are cut into. -/
def Proper : List Line → Prop
  | [] => False
  | [l] => IsBody l.body ∧ l.ending = .none
  | l :: m :: ls => IsBody l.body ∧ Precedes l m ∧ Proper (m :: ls)

/-- The text that the lines make up. -/
def textOf (ls : List Line) : Text := ls.flatMap text

@[simp] theorem textOf_nil : textOf [] = [] := rfl

@[simp] theorem textOf_cons (l : Line) (ls : List Line) : textOf (l :: ls) = l.text ++ textOf ls := rfl

@[simp] theorem textOf_append (ls ms : List Line) : textOf (ls ++ ms) = textOf ls ++ textOf ms := by
  simp [textOf]

theorem textOf_ofVisual (t : Text) : textOf (ofVisual t) = t := text_ofVisual t

/-! ### Cutting and joining -/

theorem Proper.cons {l : Line} {ls : List Line} (hl : IsBody l.body) (h : Proper ls)
    (hp : ∀ m ∈ ls.head?, Precedes l m) : Proper (l :: ls) := by
  cases ls with
  | nil => exact h.elim
  | cons m ls => exact ⟨hl, hp m rfl, h⟩

theorem Proper.isBody {ls : List Line} (h : Proper ls) : ∀ l ∈ ls, IsBody l.body := by
  induction ls with
  | nil => simp
  | cons l ls ih =>
    cases ls with
    | nil => simpa using h.1
    | cons m ls => exact List.forall_mem_cons.2 ⟨h.1, ih h.2.2⟩

theorem proper_prepend {c : Char} {ls : List Line} (hc : c ≠ '\r' ∧ c ≠ '\n') (h : Proper ls) :
    Proper (prepend c ls) := by
  match ls with
  | [] => exact h.elim
  | [l] => exact ⟨isBody_cons.2 ⟨hc, h.1⟩, h.2⟩
  | l :: m :: ls => exact ⟨isBody_cons.2 ⟨hc, h.1⟩, h.2⟩

/-- An LF in front of a text is a line of its own, so a CR in front of a text that does not begin
with LF is an ending of its own. -/
theorem head?_textOf_ofVisual (t : Text) :
    ∀ m ∈ (ofVisual t).head?, m.body = [] → m.ending = .lf → t.head? = some '\n' := by
  intro m hm hb he
  have h := textOf_ofVisual t
  cases hls : ofVisual t with
  | nil => simp [hls] at hm
  | cons l ls =>
    rw [hls] at hm h
    obtain rfl : l = m := by simpa using hm
    rw [← h]; simp [text, hb, he, Ending.text]

theorem proper_ofVisual (t : Text) : Proper (ofVisual t) := by
  fun_induction ofVisual t with
  | case1 => exact ⟨isBody_nil, rfl⟩
  | case2 t ih => exact ih.cons isBody_nil fun m _ => ⟨by simp, by simp⟩
  | case3 t ih => exact ih.cons isBody_nil fun m _ => ⟨by simp, by simp⟩
  | case4 t hne ih =>
    refine ih.cons isBody_nil fun m hm => ⟨by simp, ?_⟩
    rintro ⟨-, hb, he⟩
    have := head?_textOf_ofVisual t m hm hb he
    cases t with
    | nil => simp at this
    | cons c t => exact hne t (by simpa using this)
  | case5 c t h₁ h₂ h₃ ih => exact proper_prepend ⟨by simpa using h₃, by simpa using h₁⟩ ih

theorem ofVisual_cons_of_ne {c : Char} (hc : c ≠ '\r' ∧ c ≠ '\n') (t : Text) :
    ofVisual (c :: t) = prepend c (ofVisual t) :=
  ofVisual.eq_5 c t (by simpa using hc.2) (by simp [hc.1]) (by simpa using hc.1)

theorem ofVisual_cr_of_ne {t : Text} (h : t.head? ≠ some '\n') :
    ofVisual ('\r' :: t) = ⟨[], .cr⟩ :: ofVisual t :=
  ofVisual.eq_4 t fun u hu => h (by rw [hu]; rfl)

/-- Each CR has an LF behind it. -/
def NoLoneCr (t : Text) : Prop := ∀ a b, t = a ++ '\r' :: b → b.head? = some '\n'

theorem noLoneCr_cons {c : Char} {t : Text} :
    NoLoneCr (c :: t) ↔ (c = '\r' → t.head? = some '\n') ∧ NoLoneCr t := by
  constructor
  · intro h
    refine ⟨?_, fun a b hab => h (c :: a) b (by rw [hab]; rfl)⟩
    rintro rfl
    exact h [] t rfl
  · rintro ⟨hc, ht⟩ a b hab
    cases a with
    | nil =>
      obtain ⟨rfl, rfl⟩ := List.cons.inj hab
      exact hc rfl
    | cons d a => exact ht a b (List.cons.inj hab).2

instance decidableNoLoneCr : (t : Text) → Decidable (NoLoneCr t)
  | [] => isTrue fun a b h => by simp at h
  | _ :: t =>
    have := decidableNoLoneCr t
    decidable_of_iff _ noLoneCr_cons.symm

/-- Only a lone CR tells the two cuts apart. -/
theorem ofPhysical_eq_ofVisual {t : Text} (h : NoLoneCr t) : ofPhysical t = ofVisual t := by
  fun_induction ofVisual t with
  | case1 => rfl
  | case2 t ih => rw [ofPhysical, ih (noLoneCr_cons.1 h).2]
  | case3 t ih => rw [ofPhysical, ih (noLoneCr_cons.1 (noLoneCr_cons.1 h).2).2]
  | case4 t hne ih =>
    have hhead := (noLoneCr_cons.1 h).1 rfl
    cases t with
    | nil => cases hhead
    | cons c t => exact absurd (congrArg (· :: t) (Option.some.inj hhead)) (hne t)
  | case5 c t h₁ h₂ h₃ ih => rw [ofPhysical.eq_4 c t h₁ h₂, ih (noLoneCr_cons.1 h).2]

theorem map_ending_prepend {c : Char} {ls : List Line} (h : ls ≠ []) :
    (prepend c ls).map Line.ending = ls.map Line.ending := by
  obtain ⟨l, ls, rfl⟩ := List.exists_cons_of_ne_nil h
  rfl

theorem noLoneCr_iff {t : Text} : NoLoneCr t ↔ ∀ e ∈ (ofVisual t).map Line.ending, e ≠ .cr := by
  fun_induction ofVisual t with
  | case1 => simp [NoLoneCr]
  | case2 t ih => simp [noLoneCr_cons, ih]
  | case3 t ih => simp [noLoneCr_cons, ih]
  | case4 t hne ih =>
    have hhead : t.head? ≠ some '\n' := fun h => by
      cases t with
      | nil => cases h
      | cons c t => exact hne t (congrArg (· :: t) (Option.some.inj h))
    simp [noLoneCr_cons, hhead]
  | case5 c t h₁ h₂ h₃ ih =>
    rw [map_ending_prepend fun hnil => by simpa [hnil, Proper] using proper_ofVisual t, ← ih, noLoneCr_cons]
    exact and_iff_right fun hc => absurd hc (by simpa using h₃)

theorem ofVisual_body_append {b : Text} (hb : IsBody b) {t : Text} {l : Line} {ls : List Line}
    (h : ofVisual t = l :: ls) : ofVisual (b ++ t) = { l with body := b ++ l.body } :: ls := by
  induction b with
  | nil => exact h
  | cons c b ih =>
    obtain ⟨hc, hb⟩ := isBody_cons.1 hb
    rw [List.cons_append, ofVisual_cons_of_ne hc, ih hb]
    rfl

theorem ofVisual_of_isBody {b : Text} (h : IsBody b) : ofVisual b = [⟨b, .none⟩] := by
  have : ofVisual [] = [⟨[], .none⟩] := rfl
  simpa using ofVisual_body_append h this

theorem ofVisual_text_append {l : Line} (hb : IsBody l.body) {t : Text} {ls : List Line}
    (h : ofVisual (l.ending.text ++ t) = ⟨[], l.ending⟩ :: ls) : ofVisual (l.text ++ t) = l :: ls := by
  rw [text, List.append_assoc, ofVisual_body_append hb h]
  simp

/-- The text of some lines begins with LF only if an LF ends an empty first line. -/
theorem head?_textOf_ne {m : Line} {ms : List Line} (h : Proper (m :: ms))
    (hm : ¬ (m.body = [] ∧ m.ending = .lf)) : (textOf (m :: ms)).head? ≠ some '\n' := by
  obtain ⟨body, ending⟩ := m
  cases body with
  | cons c body =>
    have hc : c ≠ '\n' := (h.isBody _ (List.mem_cons_self ..) c (List.mem_cons_self ..)).2
    simpa [text] using hc
  | nil =>
    cases ending with
    | lf => exact absurd ⟨rfl, rfl⟩ hm
    | crlf => simp [text, Ending.text]
    | cr => simp [text, Ending.text]
    | none =>
      cases ms with
      | nil => simp [text, Ending.text]
      | cons n ms => exact absurd rfl h.2.1.1

theorem ofVisual_ending_append {l m : Line} {ms : List Line} (hp : Precedes l m)
    (h : Proper (m :: ms)) :
    ofVisual (l.ending.text ++ textOf (m :: ms)) = ⟨[], l.ending⟩ :: ofVisual (textOf (m :: ms)) := by
  cases he : l.ending with
  | none => exact absurd he hp.1
  | lf => rfl
  | crlf => rfl
  | cr => exact ofVisual_cr_of_ne (head?_textOf_ne h fun hm => hp.2 ⟨he, hm⟩)

/-- Lines that a text can have are what their text is cut into. -/
theorem ofVisual_of_proper {ls : List Line} (h : Proper ls) : ofVisual (textOf ls) = ls := by
  induction ls with
  | nil => exact h.elim
  | cons l ls ih =>
    cases ls with
    | nil =>
      have he : ofVisual (l.ending.text ++ []) = [⟨[], l.ending⟩] := by rw [h.2]; rfl
      simpa using ofVisual_text_append h.1 he
    | cons m ms =>
      have he := ofVisual_ending_append h.2.1 h.2.2
      rw [ih h.2.2] at he
      exact ofVisual_text_append h.1 he

/-! ### Places of lines -/

theorem Proper.exists_last {ls : List Line} (h : Proper ls) :
    ∃ before body, ls = before ++ [⟨body, .none⟩] := by
  induction ls with
  | nil => exact h.elim
  | cons l ls ih =>
    cases ls with
    | nil =>
      obtain ⟨body, e⟩ := l
      obtain rfl : e = .none := h.2
      exact ⟨[], body, rfl⟩
    | cons m ls =>
      obtain ⟨before, body, hls⟩ := ih h.2.2
      exact ⟨l :: before, body, by rw [hls]; rfl⟩

/-- A line with other lines behind it has an ending. -/
theorem Proper.size_body_lt {before after : List Line} {l : Line} (h : Proper (before ++ l :: after))
    (hne : after ≠ []) : Text.size l.body < Text.size l.text := by
  induction before with
  | nil =>
    obtain ⟨m, ms, rfl⟩ := List.exists_cons_of_ne_nil hne
    have he : l.ending ≠ .none := h.2.1.1
    have hpos : 0 < Text.size l.ending.text := by
      rw [Text.size_pos_iff]
      cases hl : l.ending with
      | none => exact absurd hl he
      | lf => simp [Ending.text]
      | crlf => simp [Ending.text]
      | cr => simp [Ending.text]
    rw [text, Text.size_append]
    omega
  | cons m before ih =>
    cases before with
    | nil => exact ih h.2.2
    | cons n before => exact ih h.2.2

theorem exists_first_of_mem {α : Type} {P : α → Prop} {ls : List α} {l : α} (hl : l ∈ ls) (hp : P l) :
    ∃ before m after, ls = before ++ m :: after ∧ (∀ n ∈ before, ¬ P n) ∧ P m := by
  classical
  cases h : ls.find? fun m => decide (P m) with
  | none => exact absurd hp (by simpa using List.find?_eq_none.1 h l hl)
  | some m =>
    obtain ⟨hm, before, after, rfl, hb⟩ := List.find?_eq_some_iff_append.1 h
    exact ⟨before, m, after, rfl, by simpa using hb, by simpa using hm⟩

theorem eq_or_append_of_append_eq {b a c d : List Line} {l m : Line}
    (h : b ++ l :: a = c ++ m :: d) : l = m ∨ (∃ x, c = b ++ l :: x) ∨ ∃ x, b = c ++ m :: x := by
  rcases List.append_eq_append_iff.1 h with ⟨x, rfl, hx⟩ | ⟨x, rfl, hx⟩
  · rcases List.cons_eq_append_iff.1 hx with ⟨rfl, hx⟩ | ⟨y, rfl, -⟩
    · exact .inl (List.cons.inj hx).1
    · exact .inr (.inl ⟨y, rfl⟩)
  · rcases List.cons_eq_append_iff.1 hx with ⟨rfl, hx⟩ | ⟨y, rfl, -⟩
    · exact .inl (List.cons.inj hx).1.symm
    · exact .inr (.inr ⟨y, rfl⟩)

/-! ### Editing a line -/

/-- Another body in the place of the body of a line; an empty one could join a CR and an LF. -/
theorem Proper.replace {before after : List Line} {b b' : Text} {e : Ending}
    (h : Proper (before ++ ⟨b, e⟩ :: after)) (hb : IsBody b') (hne : b' ≠ []) :
    Proper (before ++ ⟨b', e⟩ :: after) := by
  induction before with
  | nil =>
    cases after with
    | nil => exact ⟨hb, h.2⟩
    | cons m ms => exact ⟨hb, h.2⟩
  | cons l before ih =>
    cases before with
    | nil => exact ⟨h.1, ⟨h.2.1.1, fun hc => hne hc.2.1⟩, ih h.2.2⟩
    | cons m ms => exact ⟨h.1, h.2.1, ih h.2.2⟩

/-- The lines with an LF behind the last one. An LF behind a final CR makes one ending with it. -/
def terminate : List Line → List Line
  | [] => []
  | [l] => [{ l with ending := .lf }]
  | l :: m :: ls =>
    if l.ending = .cr ∧ m.body = [] ∧ m.ending = .none then [{ l with ending := .crlf }]
    else l :: terminate (m :: ls)

theorem terminate_ne_nil {ls : List Line} (h : ls ≠ []) : terminate ls ≠ [] := by
  match ls with
  | [_] => simp [terminate]
  | _ :: _ :: _ => rw [terminate]; split <;> simp

theorem exists_body_of_mem_terminate {ls : List Line} {l : Line} (h : l ∈ terminate ls) :
    ∃ m ∈ ls, m.body = l.body := by
  induction ls with
  | nil => simp [terminate] at h
  | cons m ls ih =>
    cases ls with
    | nil =>
      obtain rfl : l = { m with ending := .lf } := by simpa [terminate] using h
      exact ⟨m, by simp, rfl⟩
    | cons k ks =>
      rw [terminate] at h
      split at h
      · obtain rfl : l = { m with ending := .crlf } := by simpa using h
        exact ⟨m, by simp, rfl⟩
      · rcases List.mem_cons.1 h with rfl | h
        · exact ⟨l, by simp, rfl⟩
        · obtain ⟨n, hn, hb⟩ := ih h
          exact ⟨n, List.mem_cons_of_mem _ hn, hb⟩

theorem textOf_terminate {ls : List Line} (h : Proper ls) : textOf (terminate ls) = textOf ls ++ ['\n'] := by
  induction ls with
  | nil => exact h.elim
  | cons l ls ih =>
    cases ls with
    | nil => simp [terminate, text, h.2, Ending.text]
    | cons m ms =>
      rw [terminate]
      split
      · next hc =>
        obtain ⟨hl, hm, he⟩ := hc
        cases ms with
        | nil => simp [text, hl, hm, he, Ending.text]
        | cons n ms => exact absurd he h.2.2.2.1.1
      · rw [textOf_cons, ih h.2.2, textOf_cons (l := l), List.append_assoc]

theorem precedes_head_terminate {l m : Line} {ms : List Line} (h : Precedes l m) (hp : Proper (m :: ms))
    (hm : ¬ (l.ending = .cr ∧ m.body = [] ∧ m.ending = .none)) :
    ∀ n ∈ (terminate (m :: ms)).head?, Precedes l n := by
  intro n hn
  refine ⟨h.1, fun ⟨hl, hb, he⟩ => ?_⟩
  cases ms with
  | nil =>
    obtain rfl : { m with ending := .lf } = n := by simpa [terminate] using hn
    exact hm ⟨hl, hb, hp.2⟩
  | cons k ms =>
    rw [terminate] at hn
    split at hn
    · obtain rfl : { m with ending := .crlf } = n := by simpa using hn
      cases he
    · obtain rfl : m = n := by simpa using hn
      exact h.2 ⟨hl, hb, he⟩

theorem Proper.terminate_append {ls ms : List Line} (hl : Proper ls) (hm : Proper ms) :
    Proper (terminate ls ++ ms) := by
  induction ls with
  | nil => exact hl.elim
  | cons l ls ih =>
    cases ls with
    | nil => exact hm.cons hl.1 fun m _ => ⟨by simp, by simp⟩
    | cons k ks =>
      rw [terminate]
      split
      · exact hm.cons hl.1 fun m _ => ⟨by simp, by simp⟩
      · next hc =>
        refine (ih hl.2.2).cons hl.1 fun n hn => precedes_head_terminate hl.2.1 hl.2.2 hc n ?_
        have hn : n ∈ (terminate (k :: ks) ++ ms).head? := hn
        rwa [List.head?_append_of_ne_nil _ (terminate_ne_nil (List.cons_ne_nil k ks))] at hn

/-- Behind an LF a text goes on with lines of its own. -/
theorem ofVisual_append_lf (a b : Text) :
    ofVisual (a ++ '\n' :: b) = terminate (ofVisual a) ++ ofVisual b := by
  have h := ofVisual_of_proper ((proper_ofVisual a).terminate_append (proper_ofVisual b))
  rwa [textOf_append, textOf_terminate (proper_ofVisual a), textOf_ofVisual, textOf_ofVisual,
    List.append_assoc] at h

/-! ### Reading line by line -/

theorem placed_append (start : Nat) (ls ms : List Line) :
    placed start (ls ++ ms) = placed start ls ++ placed (start + Text.size (textOf ls)) ms := by
  induction ls generalizing start with
  | nil => rfl
  | cons l ls ih => simp [placed, ih, Nat.add_assoc]

section Pick
variable {α : Type} (f : Text → Option α)

/-- What `f` reads in the bodies of the lines, with the offsets at which the lines start. -/
def pick (start : Nat) (ls : List Line) : List (Nat × α) :=
  (placed start ls).filterMap fun (n, l) => (f l.body).map (Prod.mk n)

@[simp] theorem pick_nil (start : Nat) : pick f start [] = [] := rfl

theorem pick_cons (start : Nat) (l : Line) (ls : List Line) :
    pick f start (l :: ls) =
      ((f l.body).map (Prod.mk start)).toList ++ pick f (start + Text.size l.text) ls := by
  simp only [pick, placed, List.filterMap_cons]
  cases f l.body <;> rfl

theorem pick_append (start : Nat) (ls ms : List Line) :
    pick f start (ls ++ ms) = pick f start ls ++ pick f (start + Text.size (textOf ls)) ms := by
  simp [pick, placed_append]

theorem pick_eq_nil_iff {start : Nat} {ls : List Line} :
    pick f start ls = [] ↔ ∀ l ∈ ls, f l.body = none := by
  induction ls generalizing start with
  | nil => simp
  | cons l ls ih =>
    rw [pick_cons, List.append_eq_nil_iff, ih, List.forall_mem_cons]
    cases f l.body <;> simp

theorem head?_pick_eq_some_iff {start n : Nat} {ls : List Line} {x : α} :
    (pick f start ls).head? = some (n, x) ↔ ∃ before l after, ls = before ++ l :: after ∧
      (∀ m ∈ before, f m.body = none) ∧ f l.body = some x ∧ n = start + Text.size (textOf before) := by
  constructor
  · intro h
    induction ls generalizing start with
    | nil => simp at h
    | cons l ls ih =>
      rw [pick_cons] at h
      cases hl : f l.body with
      | some y =>
        obtain ⟨rfl, rfl⟩ : start = n ∧ y = x := by simpa [hl] using h
        exact ⟨[], l, ls, rfl, by simp, hl, rfl⟩
      | none =>
        obtain ⟨before, k, after, rfl, hb, hk, rfl⟩ := ih (by simpa [hl] using h)
        refine ⟨l :: before, k, after, rfl, List.forall_mem_cons.2 ⟨hl, hb⟩, hk, ?_⟩
        rw [textOf_cons, Text.size_append, Nat.add_assoc]
  · rintro ⟨before, l, after, rfl, hb, hl, rfl⟩
    rw [pick_append, (pick_eq_nil_iff f).2 hb, pick_cons, hl]
    rfl

theorem pick_add (start d : Nat) (ls : List Line) :
    pick f (start + d) ls = (pick f start ls).map fun p => (p.1 + d, p.2) := by
  induction ls generalizing start with
  | nil => rfl
  | cons l ls ih =>
    have h : start + d + Text.size l.text = start + Text.size l.text + d := by omega
    rw [pick_cons, pick_cons, h, ih]
    cases f l.body <;> simp

theorem pick_map {β : Type} (g : α → β) (start : Nat) (ls : List Line) :
    pick (fun b => (f b).map g) start ls = (pick f start ls).map fun p => (p.1, g p.2) := by
  induction ls generalizing start with
  | nil => rfl
  | cons l ls ih =>
    rw [pick_cons, pick_cons, ih, List.map_append]
    cases f l.body <;> rfl

/-- What is read in lines of the same sizes is the same if it is the same line by line. -/
theorem pick_congr {ls ls' : List Line}
    (h : List.Forall₂ (fun l l' => Text.size l'.text = Text.size l.text ∧ f l'.body = f l.body) ls ls')
    (start : Nat) : pick f start ls' = pick f start ls := by
  induction h generalizing start with
  | nil => rfl
  | cons hl _ ih => rw [pick_cons, pick_cons, hl.1, hl.2, ih]

/-- What is read in a line with an empty body does not depend on how lines end. -/
theorem pick_terminate (hf : f [] = none) {ls : List Line} (h : Proper ls) (start : Nat) :
    pick f start (terminate ls) = pick f start ls := by
  induction ls generalizing start with
  | nil => exact h.elim
  | cons l ls ih =>
    cases ls with
    | nil => simp [terminate, pick_cons]
    | cons m ms =>
      rw [terminate]
      split
      · next hc =>
        cases ms with
        | nil => simp [pick_cons, hc.2.1, hf]
        | cons n ms => exact absurd hc.2.2 h.2.2.2.1.1
      · rw [pick_cons, pick_cons, ih h.2.2]

theorem size_textOf_terminate {ls : List Line} (h : Proper ls) :
    Text.size (textOf (terminate ls)) = Text.size (textOf ls) + 1 := by
  rw [textOf_terminate h, Text.size_append]; rfl

/-- Behind an LF the lines of a text are read as if they were a text of their own. -/
theorem pick_append_lf (hf : f [] = none) (a b : Text) :
    pick f 0 (ofVisual (a ++ '\n' :: b)) =
      pick f 0 (ofVisual a) ++ (pick f 0 (ofVisual b)).map fun p => (p.1 + (Text.size a + 1), p.2) := by
  have ha := proper_ofVisual a
  rw [ofVisual_append_lf, pick_append, pick_terminate f hf ha, size_textOf_terminate ha, textOf_ofVisual,
    pick_add]

end Pick

end TunnelConf.Line
