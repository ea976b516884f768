import TunnelConf.Proofs.Merge.KeyLine
import TunnelConf.Proofs.Scan.Matches

/-!
# Lines up to the letter case of names

A text is `Recased` if letters in its names, those of keys and of sections, are in another case. Main statement:
`Recased.forall₂_lines`, its lines then are the same but for these names. So what is read in a line with its name in
small letters (`LineForm.lowered`) is the same in both texts (`Recased.pick_eq`).
-/

namespace TunnelConf

open Text Line

/-! ### Characters up to letter case -/

namespace Text

theorem utf8Size_lowerChar (c : Char) : (lowerChar c).utf8Size = c.utf8Size := apply_lowerChar (by decide) c

theorem isWord_lowerChar (c : Char) : isWord (lowerChar c) = isWord c := apply_lowerChar (by decide +kernel) c

@[simp] theorem lower_cons (c : Char) (t : Text) : lower (c :: t) = lowerChar c :: lower t := rfl

@[simp] theorem lower_append (a b : Text) : lower (a ++ b) = lower a ++ lower b := List.map_append

@[simp] theorem lower_lower (t : Text) : lower (lower t) = lower t := by
  rw [lower, lower, List.map_map]
  exact List.map_congr_left fun c _ => apply_lowerChar (f := lowerChar) (by decide) c

@[simp] theorem lower_eq_nil_iff {t : Text} : lower t = [] ↔ t = [] := List.map_eq_nil_iff

@[simp] theorem size_lower (t : Text) : size (lower t) = size t := by
  induction t with
  | nil => rfl
  | cons c t ih => rw [lower_cons, size_cons, size_cons, utf8Size_lowerChar, ih]

theorem isBody_lower_iff {t : Text} : IsBody (lower t) ↔ IsBody t := by
  have hp : ∀ c, (!(lowerChar c == '\r' || lowerChar c == '\n')) = !(c == '\r' || c == '\n') :=
    apply_lowerChar (f := fun c => !(c == '\r' || c == '\n')) (by decide)
  have := forall_mem_lower_iff (p := fun c => !(c == '\r' || c == '\n')) hp (t := t)
  simpa [IsBody] using this

theorem size_eq_of_lower_eq {t u : Text} (h : lower u = lower t) : size u = size t := by
  rw [← size_lower u, h, size_lower]

end Text

/-! ### Texts with letters in another case -/

/-- `u` is `t`, which starts at byte `n`, with letters in another case at bytes where `p` holds. -/
inductive RecasedAt (p : Nat → Prop) : Nat → Text → Text → Prop
  | nil {n : Nat} : RecasedAt p n [] []
  | same {n : Nat} {c : Char} {t u : Text} (h : RecasedAt p (n + c.utf8Size) t u) : RecasedAt p n (c :: t) (c :: u)
  | letter {n : Nat} {c d : Char} {t u : Text} (hp : p n) (hcase : lowerChar c = lowerChar d)
    (h : RecasedAt p (n + c.utf8Size) t u) : RecasedAt p n (c :: t) (d :: u)

namespace RecasedAt

variable {p : Nat → Prop} {n : Nat} {t u a b c : Text}

protected theorem refl (n : Nat) (t : Text) : RecasedAt p n t t := by
  induction t generalizing n with
  | nil => exact .nil
  | cons c t ih => exact .same (ih _)

theorem lower_eq (h : RecasedAt p n t u) : lower u = lower t := by
  induction h with
  | nil => rfl
  | same _ ih => exact congrArg (List.cons _) ih
  | letter _ hcase _ ih => exact congrArg₂ List.cons hcase.symm ih

theorem eq_of_forall_not (h : RecasedAt p n t u) (hp : ∀ m, n ≤ m → m < n + size t → ¬ p m) : u = t := by
  induction h with
  | nil => rfl
  | @same n c t u _ ih =>
    rw [ih fun m hm hlt => hp m (by omega) (by rw [size_cons]; omega)]
  | @letter n c d t u hn _ _ _ =>
    have := Char.utf8Size_pos c
    exact absurd hn (hp n (by omega) (by rw [size_cons]; omega))

theorem exists_append (h : RecasedAt p n (a ++ b) u) :
    ∃ x y, u = x ++ y ∧ RecasedAt p n a x ∧ RecasedAt p (n + size a) b y := by
  induction a generalizing n u with
  | nil => exact ⟨[], u, rfl, .nil, h⟩
  | cons c a ih =>
    rw [List.cons_append] at h
    cases h with
    | same h =>
      obtain ⟨x, y, rfl, hx, hy⟩ := ih h
      exact ⟨c :: x, y, rfl, .same hx, by rwa [size_cons, ← Nat.add_assoc]⟩
    | @letter _ _ d _ _ hp hcase h =>
      obtain ⟨x, y, rfl, hx, hy⟩ := ih h
      exact ⟨d :: x, y, rfl, .letter hp hcase hx, by rwa [size_cons, ← Nat.add_assoc]⟩

/-- Where `p` does not hold around a part, only this part is recased. -/
theorem exists_middle (h : RecasedAt p n (a ++ (b ++ c)) u)
    (hp : ∀ m, n ≤ m → m < n + size (a ++ (b ++ c)) → p m → n + size a ≤ m ∧ m < n + size a + size b) :
    ∃ b', u = a ++ (b' ++ c) ∧ lower b' = lower b := by
  obtain ⟨x, y, rfl, hx, hy⟩ := h.exists_append
  obtain ⟨b', z, rfl, hb, hz⟩ := hy.exists_append
  simp only [size_append] at hp
  have hx : x = a := hx.eq_of_forall_not fun m hm hlt hpm => by
    have := hp m hm (by omega) hpm
    omega
  have hz : z = c := hz.eq_of_forall_not fun m hm hlt hpm => by
    have := hp m (by omega) (by omega) hpm
    omega
  exact ⟨b', by rw [hx, hz], hb.lower_eq⟩

end RecasedAt

/-! ### Names -/

namespace LineMatch

/-- Where the name of a line is: that of a key, or that of a section between its brackets. -/
def nameSpan? (m : LineMatch) : Option Span :=
  match m.form with
  | .comment .. => none
  | .header lead name _ => some ⟨m.offset + size lead + 1, size name, .header⟩
  | .pair p => some (p.keySpan m.offset)

theorem nameSpan?_bounds {m : LineMatch} {s : Span} (h : m.nameSpan? = some s) :
    m.offset ≤ s.start ∧ s.stop ≤ m.offset + size m.form.render := by
  obtain ⟨n, f⟩ := m
  cases f with
  | comment lead marker rest => cases h
  | header lead name trail =>
    have hb : ('[' : Char).utf8Size = 1 := rfl
    cases h
    simp only [Span.stop, LineForm.render, size_append, size_cons, hb]
    omega
  | pair p =>
    cases h
    simp only [Span.stop, Pair.keySpan, LineForm.render, Pair.render, size_append]
    omega

/-- The byte `n` is in the name of one of the lines. -/
def InName (ms : List LineMatch) (n : Nat) : Prop :=
  ∃ m ∈ ms, ∃ s, m.nameSpan? = some s ∧ s.start ≤ n ∧ n < s.stop

end LineMatch

/-- `u` is `t` with letters in names that the scanner recognises in another case. -/
def Recased (t u : Text) : Prop := RecasedAt (LineMatch.InName (scanLines t)) 0 t u

def Pair.lowered (p : Pair) : Pair := { p with name := lower p.name }

namespace LineForm

/-- The line with its name in small letters. -/
def lowered : LineForm → LineForm
  | .comment lead marker rest => .comment lead marker rest
  | .header lead name trail => .header lead (lower name) trail
  | .pair p => .pair p.lowered

theorem fits_lowered_iff {f : LineForm} : f.lowered.Fits ↔ f.Fits := by
  cases f with
  | comment lead marker rest => rfl
  | header lead name trail =>
    simp only [lowered, Fits, forall_mem_lower_iff isWord_lowerChar, ne_eq, lower_eq_nil_iff]
  | pair p =>
    have hname := forall_mem_lower_iff isAlphanumeric_lowerChar (t := p.name)
    constructor
    · rintro ⟨hlead, hn, hne, hgap, ha⟩
      exact ⟨hlead, hname.1 hn, by simpa [Pair.lowered] using hne, hgap, ha⟩
    · rintro ⟨hlead, hn, hne, hgap, ha⟩
      exact ⟨hlead, hname.2 hn, by simpa [Pair.lowered] using hne, hgap, ha⟩

theorem lower_render_lowered (f : LineForm) : lower f.lowered.render = lower f.render := by
  cases f with
  | comment lead marker rest => rfl
  | header lead name trail => simp [lowered, render]
  | pair p => simp [lowered, Pair.lowered, render, Pair.render]

/-- A line has no name, or its name can be spelled in another case. -/
theorem name_cases (f : LineForm) : (∀ n, (LineMatch.mk n f).nameSpan? = none) ∨
    ∃ a name c, f.render = a ++ (name ++ c) ∧
      (∀ n, ∃ role, (LineMatch.mk n f).nameSpan? = some ⟨n + size a, size name, role⟩) ∧
      ∀ name', lower name' = lower name →
        ∃ f' : LineForm, f'.render = a ++ (name' ++ c) ∧ f'.lowered = f.lowered := by
  cases f with
  | comment lead marker rest => exact .inl fun n => rfl
  | header lead name trail =>
    have hb : ('[' : Char).utf8Size = 1 := rfl
    refine .inr ⟨lead ++ ['['], name, ']' :: trail, by simp [render], fun n => ⟨.header, ?_⟩, fun name' h =>
      ⟨.header lead name' trail, by simp [render], by rw [lowered, lowered, h]⟩⟩
    simp [LineMatch.nameSpan?, hb, Nat.add_assoc]
  | pair p =>
    refine .inr ⟨p.lead, p.name, p.gap ++ p.assignment.elim [] Assignment.render, by simp [render, Pair.render],
      fun n => ⟨.key, rfl⟩, fun name' h => ⟨.pair { p with name := name' }, by simp [render, Pair.render], ?_⟩⟩
    simp [lowered, Pair.lowered, h]

end LineForm

/-! ### Lines -/

/-- `b'` is the line `b`, perhaps with its name in another case. -/
inductive RecasedBody : Text → Text → Prop
  | same (b : Text) : RecasedBody b b
  | renamed {f f' : LineForm} (hf : f.Fits) (h : f'.lowered = f.lowered) : RecasedBody f.render f'.render

theorem RecasedBody.lower_eq {b b' : Text} (h : RecasedBody b b') : lower b' = lower b := by
  cases h with
  | same => rfl
  | @renamed f f' hf h => rw [← LineForm.lower_render_lowered f', h, LineForm.lower_render_lowered]

theorem LineForm.ofBody?_recased {b b' : Text} (h : RecasedBody b b') :
    (ofBody? b').map lowered = (ofBody? b).map lowered := by
  cases h with
  | same => rfl
  | @renamed f f' hf h =>
    have hf' : f'.Fits := fits_lowered_iff.1 (h ▸ fits_lowered_iff.2 hf)
    rw [ofBody?_of_fits hf, ofBody?_of_fits hf', Option.map_some, Option.map_some, h]

structure Line.Recased (l l' : Line) : Prop where
  body : RecasedBody l.body l'.body
  ending : l'.ending = l.ending

namespace Line

variable {l l' m m' : Line} {ls ls' : List Line}

theorem Recased.size_text (h : l.Recased l') : size l'.text = size l.text := by
  rw [text, text, size_append, size_append, size_eq_of_lower_eq h.body.lower_eq, h.ending]

theorem Recased.body_eq_nil_iff (h : l.Recased l') : l'.body = [] ↔ l.body = [] := by
  rw [← lower_eq_nil_iff, h.body.lower_eq, lower_eq_nil_iff]

theorem Precedes.recased (h : Precedes l m) (hl : l.Recased l') (hm : m.Recased m') : Precedes l' m' := by
  rw [Precedes, hl.ending, hm.ending, hm.body_eq_nil_iff]
  exact h

theorem Proper.recased (h : Proper ls) (hr : List.Forall₂ Recased ls ls') : Proper ls' := by
  have hbody : ∀ {l l' : Line}, l.Recased l' → IsBody l.body → IsBody l'.body := fun hl hb =>
    isBody_lower_iff.1 (hl.body.lower_eq ▸ isBody_lower_iff.2 hb)
  induction hr with
  | nil => exact h
  | cons hl hls ih =>
    cases hls with
    | nil => exact ⟨hbody hl h.1, hl.ending.trans h.2⟩
    | cons hm hms => exact ⟨hbody hl h.1, h.2.1.recased hl hm, ih h.2.2⟩

/-- A line whose letters are in another case only where its name is. -/
theorem exists_recased {p : Nat → Prop} {n : Nat} {x : Text} (h : RecasedAt p n l.text x)
    (hp : ∀ k, n ≤ k → k < n + size l.text → p k →
      LineMatch.InName ((LineForm.ofBody? l.body).map (LineMatch.mk n)).toList k) :
    ∃ l', x = l'.text ∧ l.Recased l' := by
  cases hf : LineForm.ofBody? l.body with
  | none =>
    rw [hf] at hp
    have hx : x = l.text := h.eq_of_forall_not fun k hk hlt hpk => by
      obtain ⟨m, hm, -⟩ := hp k hk hlt hpk
      cases hm
    exact ⟨l, hx, .same l.body, rfl⟩
  | some f =>
    have hfits := LineForm.fits_of_ofBody? hf
    have hbody := LineForm.render_of_ofBody? hf
    have hname : ∀ k, n ≤ k → k < n + size l.text → p k →
        ∃ s, (LineMatch.mk n f).nameSpan? = some s ∧ s.start ≤ k ∧ k < s.stop := fun k hk hlt hpk => by
      rw [hf] at hp
      obtain ⟨m, hm, hs⟩ := hp k hk hlt hpk
      obtain rfl := List.mem_singleton.1 hm
      exact hs
    rcases f.name_cases with hnone | ⟨a, name, c, hrender, hspan, hrecase⟩
    · have hx : x = l.text := h.eq_of_forall_not fun k hk hlt hpk => by
        obtain ⟨s, hs, -⟩ := hname k hk hlt hpk
        rw [hnone] at hs
        cases hs
      exact ⟨l, hx, .same l.body, rfl⟩
    · obtain ⟨role, hspan⟩ := hspan n
      have htext : l.text = a ++ (name ++ (c ++ l.ending.text)) := by simp [text, ← hbody, hrender]
      rw [htext] at h hname
      obtain ⟨name', rfl, hlower⟩ := h.exists_middle fun k hk hlt hpk => by
        obtain ⟨s, hs, hstart, hstop⟩ := hname k hk hlt hpk
        rw [hspan] at hs
        cases hs
        exact ⟨hstart, hstop⟩
      obtain ⟨f', hrender', hf'⟩ := hrecase name' hlower
      exact ⟨⟨f'.render, l.ending⟩, by simp [text, hrender'], hbody ▸ .renamed hfits hf', rfl⟩

/-- Recasing goes line by line. -/
theorem exists_recased_lines {p : Nat → Prop} {n : Nat} {u : Text} (h : RecasedAt p n (textOf ls) u)
    (hp : ∀ k, n ≤ k → p k → LineMatch.InName (LineMatch.ofLines n ls) k) :
    ∃ ls', u = textOf ls' ∧ List.Forall₂ Recased ls ls' := by
  induction ls generalizing n u with
  | nil => cases h; exact ⟨[], rfl, .nil⟩
  | cons l ls ih =>
    rw [textOf_cons] at h
    obtain ⟨x, y, rfl, hx, hy⟩ := h.exists_append
    obtain ⟨l', rfl, hl⟩ := exists_recased hx fun k hk hlt hpk => by
      obtain ⟨m, hm, s, hs, hstart, hstop⟩ := hp k hk hpk
      rw [LineMatch.ofLines_cons, List.mem_append] at hm
      rcases hm with hm | hm
      · exact ⟨m, hm, s, hs, hstart, hstop⟩
      · -- names of the lines behind are further on
        have := LineMatch.le_offset_of_mem_ofLines hm
        have := (LineMatch.nameSpan?_bounds hs).1
        omega
    obtain ⟨ls', rfl, hls⟩ := ih hy fun k hk hpk => by
      obtain ⟨m, hm, s, hs, hstart, hstop⟩ := hp k (by omega) hpk
      rw [LineMatch.ofLines_cons, List.mem_append] at hm
      rcases hm with hm | hm
      · -- the name of the line is in the line
        obtain ⟨f, hf, rfl⟩ := Option.map_eq_some_iff.1 (Option.mem_toList.1 hm)
        have := (LineMatch.nameSpan?_bounds hs).2
        simp only [LineForm.render_of_ofBody? hf] at this
        simp only [text, size_append] at hk
        omega
      · exact ⟨m, hm, s, hs, hstart, hstop⟩
    exact ⟨l' :: ls', rfl, .cons hl hls⟩

end Line

variable {t u : Text}

theorem Recased.forall₂_lines (h : Recased t u) : List.Forall₂ Line.Recased (ofVisual t) (ofVisual u) := by
  have h : RecasedAt (LineMatch.InName (scanLines t)) 0 (textOf (ofVisual t)) u := by rwa [textOf_ofVisual]
  obtain ⟨ls', rfl, hls⟩ := exists_recased_lines h fun k _ hk => LineMatch.scanLines_eq_ofLines t ▸ hk
  rwa [ofVisual_of_proper ((proper_ofVisual t).recased hls)]

/-- What is read in the lines of a recased text, if it does not depend on the case of names. -/
theorem Recased.pick_eq {α : Type} {f : Text → Option α} (hf : ∀ b b', RecasedBody b b' → f b' = f b)
    (h : Recased t u) : pick f 0 (ofVisual u) = pick f 0 (ofVisual t) :=
  pick_congr f (h.forall₂_lines.imp fun _ _ hl => ⟨hl.size_text, hf _ _ hl.body⟩) 0

end TunnelConf
