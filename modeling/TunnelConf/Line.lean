import TunnelConf.Text.Basic

/-!
# Lines

A text is cut into lines in two ways: the scanner ends a line at LF, at CRLF and at a lone CR,
while line records and positions know LF and CRLF only. Either cut loses nothing
(`text_ofVisual`, `text_ofPhysical`): the lines with their endings, one after the other, are the
text.
-/

namespace TunnelConf

/-- How a line ends; the last line of a text has no ending. -/
inductive Ending
  | none
  | lf
  | crlf
  | cr
deriving DecidableEq, Repr

def Ending.text : Ending → Text
  | .none => []
  | .lf => ['\n']
  | .crlf => ['\r', '\n']
  | .cr => ['\r']

structure Line where
  body : Text
  ending : Ending
deriving DecidableEq, Repr

namespace Line

/-- The line with its ending. -/
def text (l : Line) : Text := l.body ++ l.ending.text

/-- `c` in front of the first of some lines. -/
def prepend (c : Char) : List Line → List Line
  | [] => [⟨[c], .none⟩]
  | l :: ls => { l with body := c :: l.body } :: ls

/-- The lines that end at LF, CRLF or a lone CR; the last one has no ending. -/
def ofVisual : Text → List Line
  | [] => [⟨[], .none⟩]
  | '\n' :: t => ⟨[], .lf⟩ :: ofVisual t
  | '\r' :: '\n' :: t => ⟨[], .crlf⟩ :: ofVisual t
  | '\r' :: t => ⟨[], .cr⟩ :: ofVisual t
  | c :: t => prepend c (ofVisual t)

/-- The lines that end at LF or CRLF; the last one has no ending. -/
def ofPhysical : Text → List Line
  | [] => [⟨[], .none⟩]
  | '\n' :: t => ⟨[], .lf⟩ :: ofPhysical t
  | '\r' :: '\n' :: t => ⟨[], .crlf⟩ :: ofPhysical t
  | c :: t => prepend c (ofPhysical t)

/-- The lines with the offsets at which they start, the first one at `start`. -/
def placed (start : Nat) : List Line → List (Nat × Line)
  | [] => []
  | l :: ls => (start, l) :: placed (start + l.text.size) ls

theorem text_prepend (c : Char) (ls : List Line) :
    (prepend c ls).flatMap text = c :: ls.flatMap text := by
  cases ls <;> simp [prepend, text, Ending.text]

theorem text_ofVisual (t : Text) : (ofVisual t).flatMap text = t := by
  fun_induction ofVisual t <;> simp_all [text, Ending.text, text_prepend]

theorem text_ofPhysical (t : Text) : (ofPhysical t).flatMap text = t := by
  fun_induction ofPhysical t <;> simp_all [text, Ending.text, text_prepend]

end Line

/-- A line of a text together with the stretch that it and its ending cover. -/
structure LineRecord where
  text : Text
  start : Nat
  stop : Nat
deriving DecidableEq, Repr

namespace LineRecord

def ofLine (start : Nat) (l : Line) : LineRecord :=
  ⟨l.body, start, start + l.text.size⟩

/-- The records of a text; what follows the last line ending is a record only if not empty. -/
def ofText (t : Text) : List LineRecord :=
  (Line.placed 0 (Line.ofPhysical t)).filterMap fun (start, l) =>
    if l.text.isEmpty then none else some (ofLine start l)

end LineRecord

end TunnelConf
