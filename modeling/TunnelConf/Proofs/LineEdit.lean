import TunnelConf.Proofs.Lines

/-!
# Editing the first line of a kind

An edit rewrites the first line that it has another body for and leaves all others (`editFirst`). If it
makes lines of lines (`Rewrites`), the lines of the edited text are the edited lines (`ofVisual_edited`).
Main statement: `edited_comm`, two edits for lines of different kinds give the same text in either order.
-/

namespace TunnelConf.Line

/-- The lines with another body in the first one that `f` has one for. -/
def editFirst (f : Text → Option Text) : List Line → List Line
  | [] => []
  | l :: ls =>
    match f l.body with
    | some b => { l with body := b } :: ls
    | none => l :: editFirst f ls

section EditFirst
variable {f g : Text → Option Text} {ls before after : List Line} {l : Line} {b : Text}

theorem editFirst_cons_of_some (h : f l.body = some b) :
    editFirst f (l :: ls) = { l with body := b } :: ls := by
  rw [editFirst, h]

theorem editFirst_cons_of_none (h : f l.body = none) : editFirst f (l :: ls) = l :: editFirst f ls := by
  rw [editFirst, h]

theorem editFirst_of_none (h : ∀ l ∈ ls, f l.body = none) : editFirst f ls = ls := by
  induction ls with
  | nil => rfl
  | cons l ls ih =>
    obtain ⟨hl, hls⟩ := List.forall_mem_cons.1 h
    rw [editFirst_cons_of_none hl, ih hls]

theorem editFirst_of_first (hb : ∀ m ∈ before, f m.body = none) (hl : f l.body = some b) :
    editFirst f (before ++ l :: after) = before ++ { l with body := b } :: after := by
  induction before with
  | nil => exact editFirst_cons_of_some hl
  | cons m before ih =>
    obtain ⟨hm, hb⟩ := List.forall_mem_cons.1 hb
    rw [List.cons_append, editFirst_cons_of_none hm, ih hb, List.cons_append]

/-- No line is one for both edits, neither before one of them nor after it. -/
structure Apart (f g : Text → Option Text) : Prop where
  left : ∀ b b', f b = some b' → g b = none ∧ g b' = none
  right : ∀ b b', g b = some b' → f b = none ∧ f b' = none

theorem Apart.symm (h : Apart f g) : Apart g f := ⟨h.right, h.left⟩

/-- An edit makes no line one for the other edit, and none ceases to be one. -/
theorem Apart.forall_editFirst_iff (h : Apart f g) (ls : List Line) :
    (∀ l ∈ editFirst f ls, g l.body = none) ↔ ∀ l ∈ ls, g l.body = none := by
  induction ls with
  | nil => rfl
  | cons l ls ih =>
    cases hf : f l.body with
    | some b =>
      obtain ⟨hg, hgb⟩ := h.left _ _ hf
      rw [editFirst_cons_of_some hf, List.forall_mem_cons, List.forall_mem_cons]
      exact and_congr_left' ⟨fun _ => hg, fun _ => hgb⟩
    | none => rw [editFirst_cons_of_none hf, List.forall_mem_cons, List.forall_mem_cons, ih]

theorem editFirst_comm (h : Apart f g) (ls : List Line) :
    editFirst f (editFirst g ls) = editFirst g (editFirst f ls) := by
  induction ls with
  | nil => rfl
  | cons l ls ih =>
    cases hf : f l.body with
    | some b =>
      obtain ⟨hg, hgb⟩ := h.left _ _ hf
      rw [editFirst_cons_of_none hg, editFirst_cons_of_some hf, editFirst_cons_of_some hf,
        editFirst_cons_of_none hgb]
    | none =>
      cases hg : g l.body with
      | some b =>
        obtain ⟨-, hfb⟩ := h.right _ _ hg
        rw [editFirst_cons_of_some hg, editFirst_cons_of_none hf, editFirst_cons_of_none hfb,
          editFirst_cons_of_some hg]
      | none =>
        rw [editFirst_cons_of_none hg, editFirst_cons_of_none hf, editFirst_cons_of_none hf,
          editFirst_cons_of_none hg, ih]

/-- How lines end makes no difference. -/
theorem editFirst_map_ending (e : Ending → Ending) (ls : List Line) :
    editFirst f (ls.map fun l => ⟨l.body, e l.ending⟩) = (editFirst f ls).map fun l => ⟨l.body, e l.ending⟩ := by
  induction ls with
  | nil => rfl
  | cons l ls ih =>
    cases hf : f l.body with
    | some b =>
      rw [editFirst_cons_of_some hf, List.map_cons]
      exact editFirst_cons_of_some hf
    | none =>
      rw [editFirst_cons_of_none hf, List.map_cons, List.map_cons, ← ih]
      exact editFirst_cons_of_none hf

end EditFirst

/-! ### Edited texts -/

/-- The edit makes lines of lines, and no empty ones, which could join a CR and an LF. -/
structure Rewrites (f : Text → Option Text) : Prop where
  isBody : ∀ b b', IsBody b → f b = some b' → IsBody b'
  ne_nil : ∀ b b', f b = some b' → b' ≠ []

/-- The text with its first line of a kind edited. -/
def edited (f : Text → Option Text) (t : Text) : Text := textOf (editFirst f (ofVisual t))

section Edited
variable {f g : Text → Option Text}

theorem Proper.editFirst {ls : List Line} (hf : Rewrites f) (h : Proper ls) : Proper (editFirst f ls) := by
  by_cases hex : ∃ l ∈ ls, (f l.body).isSome = true
  · obtain ⟨l, hl, hsome⟩ := hex
    obtain ⟨before, ⟨body, e⟩, after, rfl, hb, hm⟩ :=
      exists_first_of_mem (P := fun l => (f l.body).isSome = true) hl hsome
    obtain ⟨b, hmb⟩ := Option.isSome_iff_exists.1 hm
    rw [editFirst_of_first (fun n hn => by simpa using hb n hn) hmb]
    exact h.replace (hf.isBody _ _ (h.isBody ⟨body, e⟩ (by simp)) hmb) (hf.ne_nil _ _ hmb)
  · rw [editFirst_of_none fun l hl => by simpa using fun hsome => hex ⟨l, hl, hsome⟩]
    exact h

theorem ofVisual_edited (hf : Rewrites f) (t : Text) : ofVisual (edited f t) = editFirst f (ofVisual t) :=
  ofVisual_of_proper ((proper_ofVisual t).editFirst hf)

/-- Edits for lines of different kinds do not get into each other's way. -/
theorem edited_comm (hf : Rewrites f) (hg : Rewrites g) (h : Apart f g) (t : Text) :
    edited f (edited g t) = edited g (edited f t) := by
  show textOf (editFirst f (ofVisual (edited g t))) = textOf (editFirst g (ofVisual (edited f t)))
  rw [ofVisual_edited hf, ofVisual_edited hg, editFirst_comm h]

end Edited

end TunnelConf.Line
