import TunnelConf.Line
import TunnelConf.Splice
import TunnelConf.Text.Space

/-!
# Merging a value into a key

A value is added to the first line that a key has in a text, behind the values that are there; a
key without a line gets one at the end of the text. Comments are no lines of a key.
-/

namespace TunnelConf

/-- A name that a key can have: one or more ASCII letters and digits. -/
structure KeyName where
  text : Text
  nonempty : text ≠ []
  alphanumeric : text.all Text.isAlphanumeric = true

namespace KeyName

def ofText? (t : Text) : Option KeyName :=
  if h : t ≠ [] ∧ t.all Text.isAlphanumeric = true then some ⟨t, h.1, h.2⟩ else none

/-- A character up to letter case; two characters outside ASCII are cases of `k` and `s`. -/
def fold (c : Char) : Char :=
  if c = '\u212a' then 'k' else if c = '\u017f' then 's' else Text.lowerChar c

/-- Divides a text behind a name that it starts with, in any letter case. -/
def divide? : Text → Text → Option (Text × Text)
  | [], t => some ([], t)
  | _ :: _, [] => none
  | k :: ks, c :: t =>
    if fold k = fold c then (divide? ks t).map fun p => (c :: p.1, p.2) else none

end KeyName

/-- A line of a key: the key alone, with a value after an equals sign, or with a value after
blanks only. -/
inductive KeyLine
  | bare (lead name gap : Text)
  | assigned (lead name gap value : Text)
  | loose (lead name gap value : Text)
deriving DecidableEq, Repr

namespace KeyLine

/-- The form of a line if it is one of the key; a longer name is another key. -/
def ofBody? (key body : Text) : Option KeyLine :=
  let lead := body.takeWhile Text.isBlank
  (KeyName.divide? key (body.dropWhile Text.isBlank)).bind fun (name, tail) =>
    let gap := tail.takeWhile Text.isBlank
    match tail.dropWhile Text.isBlank with
    | [] => some (.bare lead name gap)
    | c :: rest =>
      if c = '=' then some (.assigned lead name gap rest)
      else if gap.isEmpty then none
      else some (.loose lead name gap (c :: rest))

/-- Two values with a comma between them; a comma at the end of the first is enough. -/
def join (old new : Text) : Text :=
  if old.getLast? = some ',' then old ++ new else old ++ ',' :: new

/-- The splice that adds a value to a line that starts at `offset`. -/
def add (value : Text) (offset : Nat) : KeyLine → Splice
  | .bare lead name gap =>
    let start := offset + Text.size lead + Text.size name
    .replace start (start + Text.size gap) (" = ".toList ++ value)
  | .assigned lead name gap old =>
    let start := offset + Text.size lead + Text.size name + Text.size gap + 1
    let kept := Text.trim old
    .replace start (start + Text.size old)
      (' ' :: if kept.isEmpty then value else join kept value)
  | .loose lead name gap old =>
    let start := offset + Text.size lead + Text.size name + Text.size gap
    .replace start (start + Text.size old) ("= ".toList ++ join (Text.trim old) value)

/-- The first line of a key, with its offset. -/
def find? (key t : Text) : Option (Nat × KeyLine) :=
  (Line.placed 0 (Line.ofVisual t)).findSome? fun (start, l) =>
    (ofBody? key l.body).map (Prod.mk start)

end KeyLine

/-- The splice that adds a value to a key. -/
def mergeInsert (t : Text) (key : KeyName) (value : Text) : Splice :=
  match KeyLine.find? key.text t with
  | some (offset, line) => line.add value offset
  | none => .insert (Text.size t) ('\n' :: key.text ++ " = ".toList ++ value)

end TunnelConf
