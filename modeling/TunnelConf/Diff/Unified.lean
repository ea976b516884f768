import TunnelConf.Diff.Script
import TunnelConf.Line
import TunnelConf.Text.Number

/-!
# Unified diffs

The written form of an edit script of lines: hunks of changes with two kept lines around them.
Changes with at most four kept lines between them share a hunk.
-/

namespace TunnelConf

/-- A run of changes; the starts count the lines before it. -/
structure Hunk where
  oldStart : Nat
  newStart : Nat
  changes : Script Text
deriving DecidableEq, Repr

namespace Hunk

/-- How many kept lines stand around changes. -/
def radius : Nat := 2

/-- Which changes stand at most `radius` places behind one that is not a kept line, when `reach` of
the first ones do. -/
def nearAfter (reach : Nat) : Script Text → List Bool
  | [] => []
  | c :: s =>
    if c.isKeep then (0 < reach : Bool) :: nearAfter (reach - 1) s else true :: nearAfter radius s

/-- Which changes belong to a hunk. -/
def shown (s : Script Text) : List Bool :=
  List.zipWith (· || ·) (nearAfter 0 s) (nearAfter 0 s.reverse).reverse

/-- Puts a change before the given hunks, into the first one if that starts right after it. -/
def prepend (i j : Nat) (c : Change Text) (touching : Bool) : List Hunk → List Hunk
  | h :: hs => if touching then ⟨i, j, c :: h.changes⟩ :: hs else ⟨i, j, [c]⟩ :: h :: hs
  | [] => [⟨i, j, [c]⟩]

/-- The hunks of a script from old line `i` and new line `j` on. -/
def collect (i j : Nat) : Script Text → List Bool → List Hunk
  | c :: s, b :: bs =>
    let i' := if c.isInsert then i else i + 1
    let j' := if c.isDelete then j else j + 1
    let rest := collect i' j' s bs
    if b then prepend i j c (bs.headD false) rest else rest
  | _, _ => []

def ofScript (s : Script Text) : List Hunk := collect 0 0 s (shown s)

/-- The lines of the first list that a hunk covers, from a start to before an end. At an insertion
the place that it has noted counts. -/
def oldRange (h : Hunk) : Nat × Nat :=
  (match h.changes.head? with
    | some (.insert _ place) => place
    | _ => h.oldStart,
   match h.changes.getLast? with
    | some (.insert _ place) => place
    | _ => h.oldStart + (Script.old h.changes).length)

/-- The lines of the second list that a hunk covers. At a deletion the place that it has noted
counts. -/
def newRange (h : Hunk) : Nat × Nat :=
  (match h.changes.head? with
    | some (.delete _ place) => place
    | _ => h.newStart,
   match h.changes.getLast? with
    | some (.delete _ place) => place
    | _ => h.newStart + (Script.new h.changes).length)

/-- A first line, counted from one, and a count; the count is left out if it is one, and the line
is the one before if it is zero. -/
def renderRange (range : Nat × Nat) : Text :=
  let count := range.2 - range.1
  if count = 1 then Text.ofNat (range.1 + 1)
  else Text.ofNat (if count = 0 then range.1 else range.1 + 1) ++ ',' :: Text.ofNat count

def isEnded (line : Text) : Bool := line.getLast? = some '\n' || line.getLast? = some '\r'

def renderLine (mark : Char) (line : Text) : Text :=
  mark :: line ++ if isEnded line then [] else "\n\\ No newline at end of file\n".toList

def renderChange : Change Text → Text
  | .keep l => renderLine ' ' l
  | .delete l _ => renderLine '-' l
  | .insert l _ => renderLine '+' l

def render (h : Hunk) : Text :=
  "@@ -".toList ++ renderRange h.oldRange ++ " +".toList ++ renderRange h.newRange ++
    " @@\n".toList ++ h.changes.flatMap renderChange

end Hunk

/-- A unified diff with the numbers of lines that it inserts and deletes. -/
structure Diff where
  text : Text
  insertions : Nat
  deletions : Nat
deriving DecidableEq, Repr

namespace Diff

/-- The lines of a text, with their endings. -/
def linesOf (t : Text) : List Text :=
  ((Line.ofVisual t).map Line.text).filter fun l => !l.isEmpty

def render (path : Text) (s : Script Text) : Text :=
  "--- a/".toList ++ path ++ "\n+++ b/".toList ++ path ++ '\n' ::
    (Hunk.ofScript s).flatMap Hunk.render

/-- The diff between two texts that differ. -/
def between? (old new path : Text) : Option Diff :=
  if old = new then none
  else
    let s := Script.between (linesOf old) (linesOf new)
    some ⟨render path s, s.countP Change.isInsert, s.countP Change.isDelete⟩

end Diff

end TunnelConf
