import TunnelConf.Proofs.LineEdit
import TunnelConf.Proofs.Merge.KeyLine

/-!
# Merging as an edit of lines

`FirstLine` names the first line of a key among the lines of a text. Merging adds the value to that
line and leaves the others (`FirstLine.ofVisual_edited`), so the line is the first one of the key in
the edited text too (`FirstLine.edited`); a key without a line gets one behind all others
(`firstLine_appended`). Either way the splice applies.
-/

namespace TunnelConf

open Text Line

namespace KeyLine

/-- `k`, ended by `e`, is the first line of `key` in `t`, behind `before` and in front of `after`. -/
structure FirstLine (key : KeyName) (t : Text) (before : List Line) (k : KeyLine) (e : Ending)
    (after : List Line) : Prop where
  lines : ofVisual t = before ++ ⟨k.render, e⟩ :: after
  fits : k.Fits key.text
  none_before : ∀ l ∈ before, ofBody? key.text l.body = none

variable {key : KeyName} {t value : Text} {before after : List Line} {k : KeyLine} {e : Ending}

theorem find?_eq_head?_pick (key t : Text) :
    find? key t = (pick (ofBody? key) 0 (ofVisual t)).head? := by
  rw [find?, pick, List.head?_filterMap]

theorem find?_eq_none_iff : find? key.text t = none ↔ ∀ l ∈ ofVisual t, ofBody? key.text l.body = none := by
  rw [find?_eq_head?_pick, List.head?_eq_none_iff, pick_eq_nil_iff]

theorem FirstLine.find? (h : FirstLine key t before k e after) :
    find? key.text t = some (size (textOf before), k) := by
  rw [find?_eq_head?_pick, head?_pick_eq_some_iff]
  exact ⟨before, _, after, h.lines, h.none_before, ofBody?_of_fits h.fits, (Nat.zero_add _).symm⟩

theorem exists_firstLine {n : Nat} (h : find? key.text t = some (n, k)) :
    ∃ before e after, FirstLine key t before k e after ∧ n = size (textOf before) := by
  rw [find?_eq_head?_pick, head?_pick_eq_some_iff] at h
  obtain ⟨before, ⟨body, e⟩, after, hl, hb, hk, rfl⟩ := h
  obtain ⟨rfl, hf⟩ := ofBody?_eq_some_iff.1 hk
  exact ⟨before, e, after, ⟨hl, hf, hb⟩, Nat.zero_add _⟩

namespace FirstLine

theorem mergeInsert (h : FirstLine key t before k e after) (value : Text) :
    mergeInsert t key value = k.add value (size (textOf before)) := by
  rw [TunnelConf.mergeInsert, h.find?]

theorem text_eq (h : FirstLine key t before k e after) :
    t = textOf before ++ k.render ++ (e.text ++ textOf after) := by
  have := textOf_ofVisual t
  rw [h.lines, textOf_append, textOf_cons, Line.text] at this
  simpa using this.symm

theorem isBody (h : FirstLine key t before k e after) : IsBody k.render :=
  (proper_ofVisual t).isBody ⟨k.render, e⟩ (by simp [h.lines])

/-- The text with the value added to the line. -/
def result (before : List Line) (k : KeyLine) (e : Ending) (after : List Line) (value : Text) : Text :=
  textOf before ++ (k.added value).render ++ (e.text ++ textOf after)

theorem apply (h : FirstLine key t before k e after) (value : Text) :
    (TunnelConf.mergeInsert t key value).apply t = .ok (result before k e after value) := by
  conv_lhs => rw [h.mergeInsert, h.text_eq]
  exact apply_add k value (textOf before) _

/-- Only the line of the key has another body. -/
theorem ofVisual_edited (h : FirstLine key t before k e after) (hv : IsBody value) :
    ofVisual (result before k e after value) = before ++ ⟨(k.added value).render, e⟩ :: after := by
  have hp := proper_ofVisual t
  rw [h.lines] at hp
  have := ofVisual_of_proper (hp.replace (isBody_added h.isBody hv) (render_added_ne_nil h.fits))
  rw [← this]
  simp [result, Line.text]

theorem edited (h : FirstLine key t before k e after) (hv : IsBody value) :
    FirstLine key (result before k e after value) before (k.added value) e after :=
  ⟨h.ofVisual_edited hv, h.fits.added value, h.none_before⟩

end FirstLine

/-! ### Keys without a line -/

/-- The line that a key without one gets. -/
def fresh (key : KeyName) (value : Text) : KeyLine := .assigned [] key.text [' '] (' ' :: value)

theorem render_fresh (key : KeyName) (value : Text) :
    (fresh key value).render = key.text ++ " = ".toList ++ value := by
  simp [fresh, render, lead, name, gap, rest]

/-- It is what the key alone on a line becomes. -/
theorem fresh_eq_added (key : KeyName) (value : Text) :
    fresh key value = (KeyLine.bare [] key.text []).added value := rfl

theorem fits_bare (key : KeyName) : (KeyLine.bare [] key.text []).Fits key.text :=
  ⟨by simp [lead], rfl, by simp [gap], stops_nil, fun _ _ _ _ h => by cases h⟩

theorem fits_fresh (key : KeyName) (value : Text) : (fresh key value).Fits key.text :=
  (fits_bare key).added value

theorem mergeInsert_of_find?_eq_none (h : find? key.text t = none) (value : Text) :
    mergeInsert t key value = .insert (size t) ('\n' :: (fresh key value).render) := by
  rw [mergeInsert, h, render_fresh]; simp

theorem apply_of_find?_eq_none (h : find? key.text t = none) (value : Text) :
    (mergeInsert t key value).apply t = .ok (t ++ '\n' :: (fresh key value).render) := by
  have := Splice.apply_replace t [] [] ('\n' :: (fresh key value).render)
  rw [mergeInsert_of_find?_eq_none h, Splice.insert]
  simpa using this

theorem isBody_fresh (key : KeyName) (hv : IsBody value) : IsBody (fresh key value).render := by
  rw [render_fresh, isBody_append, isBody_append]
  refine ⟨⟨fun c hc => ?_, by simp [IsBody]⟩, hv⟩
  have ha := key.isAlphanumeric_of_mem c hc
  exact ⟨by rintro rfl; exact absurd ha (by decide), by rintro rfl; exact absurd ha (by decide)⟩

theorem ofVisual_appended (t : Text) (hv : IsBody value) :
    ofVisual (t ++ '\n' :: (fresh key value).render) =
      terminate (ofVisual t) ++ [⟨(fresh key value).render, .none⟩] := by
  rw [ofVisual_append_lf, ofVisual_of_isBody (isBody_fresh key hv)]

theorem firstLine_appended (h : find? key.text t = none) (hv : IsBody value) :
    FirstLine key (t ++ '\n' :: (fresh key value).render) (terminate (ofVisual t)) (fresh key value)
      .none [] := by
  refine ⟨ofVisual_appended t hv, fits_fresh key value, fun l hl => ?_⟩
  obtain ⟨m, hm, hb⟩ := exists_body_of_mem_terminate hl
  rw [← hb]; exact find?_eq_none_iff.1 h m hm

/-- Merging never fails. -/
theorem exists_apply (t : Text) (key : KeyName) (value : Text) :
    ∃ result, (mergeInsert t key value).apply t = .ok result := by
  cases h : find? key.text t with
  | none => exact ⟨_, apply_of_find?_eq_none h value⟩
  | some p =>
    obtain ⟨n, k⟩ := p
    obtain ⟨before, e, after, hf, -⟩ := exists_firstLine h
    exact ⟨_, hf.apply value⟩

/-! ### Keys with a line -/

/-- What merging makes of a line of the key. -/
def adding (key : KeyName) (value body : Text) : Option Text :=
  (ofBody? key.text body).map fun k => (k.added value).render

theorem adding_eq_none_iff {body : Text} : adding key value body = none ↔ ofBody? key.text body = none := by
  rw [adding, Option.map_eq_none_iff]

theorem rewrites_adding (key : KeyName) (hv : IsBody value) : Rewrites (adding key value) := by
  constructor
  · intro b b' hb h
    obtain ⟨k, hk, rfl⟩ := Option.map_eq_some_iff.1 h
    exact isBody_added ((ofBody?_eq_some_iff.1 hk).1 ▸ hb) hv
  · intro b b' h
    obtain ⟨k, hk, rfl⟩ := Option.map_eq_some_iff.1 h
    exact render_added_ne_nil (ofBody?_eq_some_iff.1 hk).2

theorem FirstLine.result_eq_edited (h : FirstLine key t before k e after) (value : Text) :
    result before k e after value = Line.edited (adding key value) t := by
  have hk : adding key value (Line.body ⟨k.render, e⟩) = some (k.added value).render := by
    rw [adding, ofBody?_of_fits h.fits]
    rfl
  have hb : ∀ l ∈ before, adding key value l.body = none := fun l hl => adding_eq_none_iff.2 (h.none_before l hl)
  rw [Line.edited, h.lines, editFirst_of_first hb hk, result, textOf_append, textOf_cons, Line.text]
  simp

/-- Merging into a key that has a line edits the first line of the key. -/
theorem apply_of_find?_ne_none (h : find? key.text t ≠ none) (value : Text) :
    (mergeInsert t key value).apply t = .ok (Line.edited (adding key value) t) := by
  obtain ⟨⟨n, k⟩, hk⟩ := Option.ne_none_iff_exists'.1 h
  obtain ⟨before, e, after, hf, -⟩ := exists_firstLine hk
  rw [hf.apply value, hf.result_eq_edited value]

end KeyLine

end TunnelConf
