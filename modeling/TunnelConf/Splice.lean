import TunnelConf.Text.Basic
import TunnelConf.Text.Number

/-!
# Splices

A splice replaces a stretch of a text and says where a cursor stands afterwards. `Splice.apply` is
about splices whose ends are in reach of a machine word, as the ends of those that come from a text
are. What becomes of any others is said by `Splice.wordApply?`.
-/

namespace TunnelConf

structure Splice where
  start : Nat
  len : Nat
  replacement : Text
  cursor : Nat
deriving DecidableEq, Repr

inductive SpliceError
  | outside (start stop size : Nat)
  | insideCharacter (start stop : Nat)
deriving DecidableEq, Repr

namespace SpliceError

def message : SpliceError → Text
  | .outside start stop size =>
    "splice ".toList ++ Text.ofNat start ++ "..".toList ++ Text.ofNat stop ++
      " is outside a document of ".toList ++ Text.ofNat size ++ " bytes".toList
  | .insideCharacter start stop =>
    "splice ".toList ++ Text.ofNat start ++ "..".toList ++ Text.ofNat stop ++
      " does not fall on character boundaries".toList

end SpliceError

namespace Splice

def stop (s : Splice) : Nat := s.start + s.len

/-- The splice that puts `replacement` in the place of the bytes from `start` to `stop`. -/
def replace (start stop : Nat) (replacement : Text) : Splice :=
  ⟨start, stop - start, replacement, start + Text.size replacement⟩

def insert (offset : Nat) (t : Text) : Splice := replace offset offset t

/-- The text that the splice replaces. -/
def original? (s : Splice) (t : Text) : Option Text := Text.slice? s.start s.len t

def apply (s : Splice) (t : Text) : Except SpliceError Text :=
  if Text.size t < s.stop then .error (.outside s.start s.stop (Text.size t))
  else
    match Text.cut? s.start t with
    | none => .error (.insideCharacter s.start s.stop)
    | some (before, rest) =>
      match Text.cut? s.len rest with
      | none => .error (.insideCharacter s.start s.stop)
      | some (_, after) => .ok (before ++ s.replacement ++ after)

/-- A splice between two parts of a text puts its replacement between what is around it. -/
theorem apply_replace (a b c r : Text) :
    (replace (Text.size a) (Text.size a + Text.size b) r).apply (a ++ b ++ c) =
      .ok (a ++ r ++ c) := by
  have h : Text.size a + Text.size b - Text.size a = Text.size b := by omega
  simp [apply, replace, stop, h]

/-! ### Machine words -/

/-- How many machine words there are. Offsets and lengths are words. -/
def wordCount : Nat := UInt64.size

/-- The sum of two words. If it is none itself, a program that checks its sums stops, and one that
does not goes on with the lower bits. -/
def wordSum? (checked : Bool) (a b : Nat) : Option Nat :=
  if a + b < wordCount then some (a + b)
  else if checked then none
  else some ((a + b) % wordCount)

def wordReplace? (checked : Bool) (start stop : Nat) (replacement : Text) : Option Splice :=
  (wordSum? checked start (Text.size replacement)).map fun cursor =>
    ⟨start, stop - start, replacement, cursor⟩

def wordInsert? (checked : Bool) (offset : Nat) (t : Text) : Option Splice :=
  wordReplace? checked offset offset t

def wordOriginal? (checked : Bool) (s : Splice) (t : Text) : Option (Option Text) :=
  (wordSum? checked s.start s.len).map fun stop =>
    if stop < s.start then none else Text.slice? s.start (stop - s.start) t

/-- Both ends are looked for from the start of the text, so a stretch that ends in front of its own
start is not noticed. -/
def wordApply? (checked : Bool) (s : Splice) (t : Text) : Option (Except SpliceError Text) :=
  (wordSum? checked s.start s.len).map fun stop =>
    if Text.size t < stop then .error (.outside s.start stop (Text.size t))
    else
      match Text.cut? s.start t, Text.cut? stop t with
      | some (before, _), some (_, after) => .ok (before ++ s.replacement ++ after)
      | _, _ => .error (.insideCharacter s.start stop)

end Splice

end TunnelConf
