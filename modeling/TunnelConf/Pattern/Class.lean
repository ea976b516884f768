import TunnelConf.Text.Ascii
import TunnelConf.Text.Case
import TunnelConf.Text.Category
import TunnelConf.Text.Space
import TunnelConf.Text.Word

/-!
# Character classes

What stands in brackets in a pattern: characters, ranges, named classes, classes in brackets, and
the operations on them. `CharClass.admits` says which characters belong to a class, with or without
regard to case.
-/

namespace TunnelConf

/-- The classes named by one letter behind a backslash. -/
inductive LetterClass
  | digit
  | space
  | word
deriving DecidableEq, Repr

namespace LetterClass

def admits : LetterClass → Char → Bool
  | .digit => Text.digitRanges.contains
  | .space => Text.isSpace
  | .word => Text.isWord

/-- The class of a letter; a capital stands for all other characters. -/
def ofChar? : Char → Option (LetterClass × Bool)
  | 'd' => some (.digit, false)
  | 's' => some (.space, false)
  | 'w' => some (.word, false)
  | 'D' => some (.digit, true)
  | 'S' => some (.space, true)
  | 'W' => some (.word, true)
  | _ => none

end LetterClass

/-- The classes of ASCII characters that have a name between colons, with their ranges. -/
def asciiClasses : List (String × CharRanges) :=
  [("alnum", [(0x30, 0x39), (0x41, 0x5A), (0x61, 0x7A)]),
    ("alpha", [(0x41, 0x5A), (0x61, 0x7A)]),
    ("ascii", [(0x00, 0x7F)]),
    ("blank", [(0x09, 0x09), (0x20, 0x20)]),
    ("cntrl", [(0x00, 0x1F), (0x7F, 0x7F)]),
    ("digit", [(0x30, 0x39)]),
    ("graph", [(0x21, 0x7E)]),
    ("lower", [(0x61, 0x7A)]),
    ("print", [(0x20, 0x7E)]),
    ("punct", [(0x21, 0x2F), (0x3A, 0x40), (0x5B, 0x60), (0x7B, 0x7E)]),
    ("space", [(0x09, 0x0D), (0x20, 0x20)]),
    ("upper", [(0x41, 0x5A)]),
    ("word", [(0x30, 0x39), (0x41, 0x5A), (0x5F, 0x5F), (0x61, 0x7A)]),
    ("xdigit", [(0x30, 0x39), (0x41, 0x46), (0x61, 0x66)])]

inductive SetOperation
  | intersection
  | difference
  | symmetricDifference
deriving DecidableEq, Repr

def SetOperation.apply : SetOperation → Bool → Bool → Bool
  | .intersection, a, b => a && b
  | .difference, a, b => a && !b
  | .symmetricDifference, a, b => a != b

inductive CharClass
  | char (c : Char)
  | range (first last : Char)
  | letter (k : LetterClass) (negated : Bool)
  | ascii (ranges : CharRanges) (negated : Bool)
  | category (k : Category) (negated : Bool)
  | bracketed (negated : Bool) (inner : CharClass)
  | union (parts : List CharClass)
  | operation (op : SetOperation) (left right : CharClass)
deriving Repr

namespace CharClass

/-- Whether a class has a character, or a case variant of it if case does not matter. -/
def upToCase (ignoreCase : Bool) (p : Char → Bool) (c : Char) : Bool :=
  if ignoreCase then (Text.caseVariants c).any p else p c

mutual

/-- Case variants are added before a class is negated, and to both sides of an operation. -/
def admits (ignoreCase : Bool) : CharClass → Char → Bool
  | .char d, c => c == d
  | .range first last, c => first ≤ c && c ≤ last
  | .letter k negated, c => k.admits c != negated
  | .ascii ranges negated, c => upToCase ignoreCase ranges.contains c != negated
  | .category k negated, c => upToCase ignoreCase k.contains c != negated
  | .bracketed negated inner, c => upToCase ignoreCase (admits ignoreCase inner) c != negated
  | .union parts, c => anyAdmits ignoreCase parts c
  | .operation op left right, c =>
    op.apply (upToCase ignoreCase (admits ignoreCase left) c)
      (upToCase ignoreCase (admits ignoreCase right) c)

def anyAdmits (ignoreCase : Bool) : List CharClass → Char → Bool
  | [], _ => false
  | k :: ks, c => admits ignoreCase k c || anyAdmits ignoreCase ks c

end

mutual

/-- Whether a class can be read as a set of ASCII characters: nothing in it is negated, and all
characters in it are ASCII characters. -/
def isAscii : CharClass → Bool
  | .char c => c.toNat < 0x80
  | .range first last => first.toNat < 0x80 && last.toNat < 0x80
  | .letter _ negated | .ascii _ negated => !negated
  | .category _ _ => false
  | .bracketed negated inner => !negated && isAscii inner
  | .union parts => allAscii parts
  | .operation _ left right => isAscii left && isAscii right

def allAscii : List CharClass → Bool
  | [] => true
  | k :: ks => isAscii k && allAscii ks

end

mutual

/-- How deep brackets, lists and operations are nested. An empty list does not count. -/
def depth : CharClass → Nat
  | .bracketed _ inner => depth inner + 1
  | .union [] => 0
  | .union parts => maxDepth parts + 1
  | .operation _ left right => max (depth left) (depth right) + 1
  | _ => 0

def maxDepth : List CharClass → Nat
  | [] => 0
  | k :: ks => max (depth k) (maxDepth ks)

end

/-- A list of classes as one class. -/
def ofParts : List CharClass → CharClass
  | [part] => part
  | parts => .union parts

end CharClass

end TunnelConf
