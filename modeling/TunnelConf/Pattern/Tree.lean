import TunnelConf.Pattern.Class

/-!
# Pattern trees

The written form of a pattern, before the switches in it take effect.
-/

namespace TunnelConf

/-- The switches that change how a pattern is read. -/
inductive Switch
  | ignoreCase
  | multiLine
  | dotAll
  | swapGreed
  | unicode
  | carriageReturn
  | verbose
deriving DecidableEq, Repr

def Switch.ofChar? : Char → Option Switch
  | 'i' => some .ignoreCase
  | 'm' => some .multiLine
  | 's' => some .dotAll
  | 'U' => some .swapGreed
  | 'u' => some .unicode
  | 'R' => some .carriageReturn
  | 'x' => some .verbose
  | _ => none

/-- Switches with whether they are turned on. -/
abbrev Switches := List (Switch × Bool)

/-- The places between characters that a pattern can ask for. -/
inductive Anchor
  | lineStart
  | lineEnd
  | textStart
  | textEnd
  | wordEdge
  | noWordEdge
  | wordStart
  | wordEnd
deriving DecidableEq, Repr

/-- How often something occurs. -/
inductive Repetition
  | zeroOrMore
  | oneOrMore
  | zeroOrOne
deriving DecidableEq, Repr

def Repetition.ofChar? : Char → Option Repetition
  | '*' => some .zeroOrMore
  | '+' => some .oneOrMore
  | '?' => some .zeroOrOne
  | _ => none

/-- A character may be given by its two-digit code, which counts as a byte where characters do. -/
inductive PatternTree
  | empty
  | switches (s : Switches)
  | char (c : Char) (isCode : Bool)
  | point
  | anchor (a : Anchor)
  | oneOf (k : CharClass)
  | repeated (r : Repetition) (greedy : Bool) (inner : PatternTree)
  | group (name : Option Text) (s : Switches) (inner : PatternTree)
  | sequence (parts : List PatternTree)
  | choice (branches : List PatternTree)
deriving Repr

namespace PatternTree

/-- Parts that follow each other as one tree. -/
def ofParts : List PatternTree → PatternTree
  | [] => .empty
  | [part] => part
  | parts => .sequence parts

/-- Branches as one tree. -/
def ofBranches : List PatternTree → PatternTree
  | [branch] => branch
  | branches => .choice branches

mutual

/-- How deep a tree is nested. -/
def depth : PatternTree → Nat
  | .oneOf k => k.depth
  | .repeated _ _ inner | .group _ _ inner => depth inner + 1
  | .sequence parts => maxDepth parts + 1
  | .choice branches => maxDepth branches + 1
  | _ => 0

def maxDepth : List PatternTree → Nat
  | [] => 0
  | t :: ts => max (depth t) (maxDepth ts)

end

mutual

/-- The names of groups. -/
def names : PatternTree → List Text
  | .repeated _ _ inner => names inner
  | .group name _ inner => name.toList ++ names inner
  | .sequence parts => allNames parts
  | .choice branches => allNames branches
  | _ => []

def allNames : List PatternTree → List Text
  | [] => []
  | t :: ts => names t ++ allNames ts

end

end PatternTree

end TunnelConf
