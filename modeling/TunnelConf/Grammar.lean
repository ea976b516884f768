import TunnelConf.Line
import TunnelConf.Span
import TunnelConf.Text.Ascii
import TunnelConf.Text.Word

/-!
# The grammar of a line

A line is a comment, a section header or a pair of a key and an optional value. `LineForm.ofBody?`
cuts a line into the parts of its form, blanks included, and `LineForm.render` puts them together
again; main statement: `render_of_ofBody?`, nothing is lost in between. A form at an offset is a
`LineMatch`, and `scanLines` lists those of a text.
-/

namespace TunnelConf

/-- The character that opens a comment. -/
inductive Marker
  | hash
  | semicolon
deriving DecidableEq, Repr

namespace Marker

def char : Marker → Char
  | .hash => '#'
  | .semicolon => ';'

def ofChar? (c : Char) : Option Marker :=
  if c = '#' then some .hash else if c = ';' then some .semicolon else none

theorem char_of_ofChar? {c : Char} {m : Marker} (h : ofChar? c = some m) : m.char = c := by
  simp only [ofChar?] at h
  split at h
  · cases h; simp_all [char]
  · split at h <;> cases h; simp_all [char]

end Marker

/-- What follows the key of a pair: the equals sign, blanks, the value and blanks again. -/
structure Assignment where
  after : Text
  value : Text
  trail : Text
deriving DecidableEq, Repr

/-- A key with blanks around it; a bare key, still being typed, has no assignment yet. -/
structure Pair where
  lead : Text
  name : Text
  gap : Text
  assignment : Option Assignment
deriving DecidableEq, Repr

inductive LineForm
  | comment (lead : Text) (marker : Marker) (rest : Text)
  | header (lead name trail : Text)
  | pair (p : Pair)
deriving DecidableEq, Repr

namespace Assignment

def render (a : Assignment) : Text := '=' :: a.after ++ a.value ++ a.trail

/-- Cuts what follows an equals sign. -/
def ofRest (rest : Text) : Assignment :=
  let value := Text.trimEndWhile Text.isBlank (rest.dropWhile Text.isBlank)
  ⟨rest.takeWhile Text.isBlank, value, (rest.dropWhile Text.isBlank).drop value.length⟩

end Assignment

namespace Pair

def render (p : Pair) : Text := p.lead ++ p.name ++ p.gap ++ p.assignment.elim [] Assignment.render

/-- Cuts what follows the leading blanks of a line. -/
def ofRest? (lead rest : Text) : Option Pair :=
  let name := rest.takeWhile Text.isAlphanumeric
  let tail := rest.dropWhile Text.isAlphanumeric
  let gap := tail.takeWhile Text.isBlank
  if name.isEmpty then none
  else
    match tail.dropWhile Text.isBlank with
    | [] => some ⟨lead, name, gap, none⟩
    | c :: rest => if c = '=' then some ⟨lead, name, gap, some (.ofRest rest)⟩ else none

end Pair

namespace LineForm

def render : LineForm → Text
  | .comment lead marker rest => lead ++ marker.char :: rest
  | .header lead name trail => lead ++ '[' :: name ++ ']' :: trail
  | .pair p => p.render

/-- Cuts what follows the leading blanks and the opening bracket of a line. -/
def header? (lead rest : Text) : Option LineForm :=
  let name := rest.takeWhile Text.isWord
  match rest.dropWhile Text.isWord with
  | [] => none
  | c :: trail =>
    if c = ']' && !name.isEmpty && trail.all Text.isBlank then some (.header lead name trail)
    else none

/-- The form of a line, given without its ending. -/
def ofBody? (body : Text) : Option LineForm :=
  let lead := body.takeWhile Text.isBlank
  match body.dropWhile Text.isBlank with
  | [] => none
  | c :: rest =>
    match Marker.ofChar? c with
    | some marker => some (.comment lead marker rest)
    | none => if c = '[' then header? lead rest else (Pair.ofRest? lead (c :: rest)).map .pair

end LineForm

/-- The form of a line and the offset at which the line starts. -/
structure LineMatch where
  offset : Nat
  form : LineForm
deriving DecidableEq, Repr

namespace Pair

def keySpan (offset : Nat) (p : Pair) : Span :=
  ⟨offset + Text.size p.lead, Text.size p.name, .key⟩

/-- Absent for a bare key. An empty value sits at the end of the line. -/
def valueSpan? (offset : Nat) (p : Pair) : Option Span :=
  p.assignment.map fun a =>
    ⟨(p.keySpan offset).stop + Text.size p.gap + 1 + Text.size a.after, Text.size a.value, .value⟩

/-- The span of the value, or the empty span right after a bare key. -/
def valueSpan (offset : Nat) (p : Pair) : Span :=
  (p.valueSpan? offset).getD ⟨(p.keySpan offset).stop, 0, .value⟩

def valueText (p : Pair) : Text := p.assignment.elim [] Assignment.value

end Pair

namespace LineMatch

/-- The span of the comment, of the header or of the key. -/
def span (m : LineMatch) : Span :=
  match m.form with
  | .comment lead _ rest => ⟨m.offset + Text.size lead, 1 + Text.size rest, .comment⟩
  | .header lead name _ => ⟨m.offset + Text.size lead, Text.size name + 2, .header⟩
  | .pair p => p.keySpan m.offset

end LineMatch

/-- The recognised lines of a text, in order. Other lines are passed over. -/
def scanLines (t : Text) : List LineMatch :=
  (Line.placed 0 (Line.ofVisual t)).filterMap fun (start, l) =>
    (LineForm.ofBody? l.body).map (LineMatch.mk start)

/-! ### Forms and their parts -/

theorem Text.trimEndWhile_append_drop (p : Char → Bool) (t : Text) :
    Text.trimEndWhile p t ++ t.drop (Text.trimEndWhile p t).length = t := by
  induction t with
  | nil => rfl
  | cons c t ih =>
    rw [Text.trimEndWhile]
    split
    · split <;> simp
    · next d r h => rw [h] at ih; simpa using ih

theorem Assignment.render_ofRest (rest : Text) : (ofRest rest).render = '=' :: rest := by
  simp [Assignment.render, ofRest, Text.trimEndWhile_append_drop, List.takeWhile_append_dropWhile]

theorem Pair.render_of_ofRest? {lead rest : Text} {p : Pair} (h : ofRest? lead rest = some p) :
    p.render = lead ++ rest := by
  simp only [ofRest?] at h
  split at h
  · cases h
  · split at h
    · next h' =>
      cases h
      have := List.takeWhile_append_dropWhile (p := Text.isBlank)
        (l := rest.dropWhile Text.isAlphanumeric)
      rw [h', List.append_nil] at this
      simp [Pair.render, this, List.takeWhile_append_dropWhile]
    · next c r h' =>
      split at h
      · cases h
        subst_vars
        have := List.takeWhile_append_dropWhile (p := Text.isBlank)
          (l := rest.dropWhile Text.isAlphanumeric)
        rw [h'] at this
        simp [Pair.render, Assignment.render_ofRest, this, List.takeWhile_append_dropWhile]
      · cases h

/-- The parts of a form make up the line. -/
theorem LineForm.render_of_ofBody? {body : Text} {f : LineForm} (h : ofBody? body = some f) :
    f.render = body := by
  have hb := List.takeWhile_append_dropWhile (p := Text.isBlank) (l := body)
  simp only [ofBody?] at h
  split at h
  · cases h
  · next c rest hc =>
    rw [hc] at hb
    split at h
    · next m hm => cases h; simp [LineForm.render, Marker.char_of_ofChar? hm, hb]
    · split at h
      · simp only [header?] at h
        split at h
        · cases h
        · next d trail hd =>
          split at h
          · next hcond =>
            cases h
            have hn := List.takeWhile_append_dropWhile (p := Text.isWord) (l := rest)
            simp only [Bool.and_eq_true, decide_eq_true_eq] at hcond
            rw [hd, hcond.1.1] at hn
            subst_vars
            simp [LineForm.render, hn, hb]
          · cases h
      · rw [Option.map_eq_some_iff] at h
        obtain ⟨p, hp, rfl⟩ := h
        rw [LineForm.render, Pair.render_of_ofRest? hp, hb]

end TunnelConf
